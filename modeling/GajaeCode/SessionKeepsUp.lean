import GajaeCode.SessionManager

/-! # The session file keeps up with memory

Between two pieces of a queued rewrite anything may happen.  The entries go into
the new file at one moment, when they are prepared, and the header when its line is
written; what comes later must reach the new file by another way, and what is
written to the old file is lost with it.  `Safe` names the calls for which there is
no such way.  Along every run of safe actions the file is up to date whenever the
queue is idle.
-/
namespace GajaeCode
open List Option
namespace SessionManager
open JsString
variable {M B : Type} (codec : EntryCodec M B)
variable {entry : SessionEntry M B} {object : Nat} {records : List (SessionRecord M B)}
variable (s : SessionManager M B)

/-- `_persist` gets as far as the writer: the entry is appended to the open file. -/
def AppendsToFile (entry : SessionEntry M B) : Prop :=
  (s.ensuredOnDisk = true ∨ hasAssistant codec (s.entries ++ [entry]) = true) ∧
    s.needsFullRewriteOnNextPersist = false ∧ s.flushed = true

/-- `_persist` only keeps the entry in memory until an assistant message comes. -/
def StaysInMemory (entry : SessionEntry M B) : Prop :=
  s.ensuredOnDisk = false ∧ hasAssistant codec (s.entries ++ [entry]) = false

/-- An append is safe unless a rewrite is under way and

* the writer is released, and the append would open one on the file to be replaced,
* the entries are prepared, and the new file has not replaced the old one, or
* it has, and the append would count on a later rewrite, which is then declared done. -/
def SafeAppend (entry : SessionEntry M B) : Option (PersistStage M B) → Prop
  | some .released => ¬ AppendsToFile codec s entry
  | some (.preparing _ _) | some (.writing _ _) | some (.replacing _) => False
  | some .renamed => ¬ StaysInMemory codec s entry
  | _ => True

/-- A renaming is safe unless the first file of the session is being written and has
the header already: there is no file to patch yet. -/
def SafeRenaming : Option (PersistStage M B) → Prop
  | some (.preparing (some _) _) | some (.writing _ _) | some (.replacing _) =>
      s.fileExists = true
  | _ => True

/-- The actions for which the code keeps the file up to date. -/
def Safe : Action M B → Prop
  | .append entry => SafeAppend codec s entry s.running
  | .setSessionName _ _ => SafeRenaming s s.running
  | _ => True

/-- Every action of the run is safe where it happens. -/
def SafeAlong : List (Action M B) → SessionManager M B → Prop
  | [], _ => True
  | a :: rest, s => Safe codec s a ∧
      match s.step codec a with
      | some s' => SafeAlong rest s'
      | none => True

instance (s : SessionManager M B) (entry : SessionEntry M B) :
    Decidable (AppendsToFile codec s entry) :=
  inferInstanceAs (Decidable (_ ∧ _))

instance (s : SessionManager M B) (entry : SessionEntry M B) :
    Decidable (StaysInMemory codec s entry) :=
  inferInstanceAs (Decidable (_ ∧ _))

instance (s : SessionManager M B) (entry : SessionEntry M B) :
    (stage : Option (PersistStage M B)) → Decidable (SafeAppend codec s entry stage)
  | some .released => inferInstanceAs (Decidable (¬ AppendsToFile codec s entry))
  | some (.preparing _ _) | some (.writing _ _) | some (.replacing _) => isFalse id
  | some .renamed => inferInstanceAs (Decidable (¬ StaysInMemory codec s entry))
  | none | some .closing | some (.patching _ _) => isTrue trivial

instance (s : SessionManager M B) :
    (stage : Option (PersistStage M B)) → Decidable (SafeRenaming s stage)
  | some (.preparing (some _) _) | some (.writing _ _) | some (.replacing _) =>
      inferInstanceAs (Decidable (s.fileExists = true))
  | none | some .closing | some .released | some (.preparing none _) | some .renamed
  | some (.patching _ _) => isTrue trivial

instance (s : SessionManager M B) : (a : Action M B) → Decidable (Safe codec s a)
  | .append entry => inferInstanceAs (Decidable (SafeAppend codec s entry s.running))
  | .setSessionName _ _ => inferInstanceAs (Decidable (SafeRenaming s s.running))
  | .rewriteFile | .ensureOnDisk | .advance => isTrue trivial

instance decidableSafeAlong :
    (actions : List (Action M B)) → (s : SessionManager M B) → Decidable (SafeAlong codec actions s)
  | [], _ => isTrue trivial
  | a :: rest, s =>
      have : Decidable (match s.step codec a with
          | some s' => SafeAlong codec rest s'
          | none => True) :=
        match s.step codec a with
        | some s' => decidableSafeAlong rest s'
        | none => isTrue trivial
      inferInstanceAs (Decidable (_ ∧ _))

def patchOf : PersistTask → Option HeaderPatch
  | .rewrite => none
  | .patch patch => some patch

/-- The patch the running task is about to write. -/
def runningPatch : Option (PersistStage M B) → List HeaderPatch
  | some (.patching _ patch) => [patch]
  | _ => []

/-- The header patches that are still to be written, in order. -/
def pendingPatches : List HeaderPatch :=
  runningPatch s.running ++ s.queue.filterMap patchOf

def settle (header : SessionHeader) (patches : List HeaderPatch) : SessionHeader :=
  patches.foldl applyHeaderPatch header

section Settle
variable {header : SessionHeader} {p : HeaderPatch} {patches : List HeaderPatch}

theorem applyHeaderPatch_settle (hall : ∀ q ∈ patches, IsRenaming q) (hp : IsRenaming p) :
    applyHeaderPatch (settle header patches) p = applyHeaderPatch header p := by
  induction patches generalizing header with
  | nil => rfl
  | cons q rest ih =>
    have hq := hall q mem_cons_self
    rw [settle, foldl_cons]
    exact (ih (fun r hr => hall r (mem_cons_of_mem _ hr))).trans
      (applyHeaderPatch_renaming hq hp header)

theorem settle_snoc : settle header (patches ++ [p]) = applyHeaderPatch (settle header patches) p := by
  simp [settle]

/-- A header that has the last of the patches does not change by replaying them. -/
theorem settle_snoc_self (hall : ∀ q ∈ patches, IsRenaming q) (hp : IsRenaming p) :
    settle (applyHeaderPatch header p) (patches ++ [p]) = applyHeaderPatch header p := by
  rw [settle_snoc, applyHeaderPatch_settle hall hp]
  exact applyHeaderPatch_renaming hp hp header

theorem settle_tail (hall : ∀ q ∈ p :: patches, IsRenaming q)
    (h : settle header (p :: patches) = header) : settle header patches = header := by
  cases patches with
  | nil => rfl
  | cons q rest =>
    have hp := hall p mem_cons_self
    have hq := hall q (mem_cons_of_mem _ mem_cons_self)
    calc settle header (q :: rest) = settle (applyHeaderPatch header q) rest := rfl
      _ = settle (applyHeaderPatch (applyHeaderPatch header p) q) rest := by
          rw [applyHeaderPatch_renaming hp hq]
      _ = header := h

theorem settle_prepareHeader (hall : ∀ q ∈ patches, IsRenaming q) :
    settle (prepareHeader header) patches = prepareHeader (settle header patches) := by
  induction patches generalizing header with
  | nil => rfl
  | cons q rest ih =>
    have hq := hall q mem_cons_self
    rw [settle, settle, foldl_cons, foldl_cons, ← prepareHeader_applyHeaderPatch hq header]
    exact ih (fun r hr => hall r (mem_cons_of_mem _ hr))

end Settle

/-- Read back and patched with what is on its way, the records are what is in
memory. -/
def Describes (records : List (SessionRecord M B)) : Prop :=
  ∃ header, parseSessionEntries records = transcript header (s.preparedEntries codec) ∧
    header.version = some currentSessionVersion ∧
    settle header s.pendingPatches = prepareHeader s.header

/-- The session file is up to date or about to be rewritten, and an open writer is
on it. -/
def Settled : Prop :=
  ∃ object records, s.disk.target = some object ∧ s.disk.objects[object]? = some records ∧
    (s.persistWriter = none ∨ s.persistWriter = some ⟨object, false⟩) ∧
    (Describes codec s records ∨ .rewrite ∈ s.queue)

/-- No writer is cached, and there is a file exactly if the flags say so. -/
def Released : Prop :=
  s.persistWriter = none ∧ s.fileExists = s.flushed

/-- What holds while the running task waits at a stage. -/
def StageHolds : Option (PersistStage M B) → Prop
  | none => (s.flushed = true ∧ Settled codec s) ∨ (s.flushed = false ∧ Released s)
  | some .closing => s.flushed = true ∧ s.fileExists = true ∧
      ∃ writer, s.persistWriter = some writer ∧ writer.closing = true
  | some .released => Released s
  | some (.preparing header entries) => Released s ∧ entries = s.preparedEntries codec ∧
      match header with
      | none => prepareHeader s.header = s.header
      | some header => header.version = some currentSessionVersion ∧
          settle header s.pendingPatches = prepareHeader s.header
  | some (.writing object rest) => Released s ∧ ∃ records,
      s.disk.objects[object]? = some records ∧ Describes codec s (records ++ rest)
  | some (.replacing object) => Released s ∧ ∃ records,
      s.disk.objects[object]? = some records ∧ Describes codec s records
  | some .renamed => Settled codec s
  | some (.patching object _) => s.flushed = true ∧ Settled codec s ∧
      s.persistWriter = some ⟨object, false⟩

/-- What holds along every safe run. -/
structure Invariant (s : SessionManager M B) : Prop where
  noError : s.persistError = false
  version : s.header.version = some currentSessionVersion
  noRewrite : s.needsFullRewriteOnNextPersist = false
  flags : s.ensuredOnDisk = s.flushed
  renamings : ∀ p ∈ s.pendingPatches, IsRenaming p
  absorbed : settle s.header s.pendingPatches = s.header
  fresh : s.fileExists = false → s.pendingPatches = []
  stage : ∀ stage, s.running = stage → StageHolds codec s stage

variable {codec} {s : SessionManager M B}

/-- A full copy of memory describes it, whatever patches are on their way. -/
theorem describes_image (hrenamings : ∀ p ∈ s.pendingPatches, IsRenaming p)
    (habsorbed : settle s.header s.pendingPatches = s.header)
    (hversion : s.header.version = some currentSessionVersion) :
    Describes codec s ((s.image codec).map SessionFileEntry.record) := by
  refine ⟨prepareHeader s.header, parseSessionEntries_record _, hversion, ?_⟩
  rw [settle_prepareHeader hrenamings, habsorbed]

theorem Settled.fileExists (h : Settled codec s) : s.fileExists = true := by
  obtain ⟨object, _, htarget, _⟩ := h
  simp [SessionManager.fileExists, htarget]

theorem objects_write {d : SessionDisk M B} (h : d.objects[object]? = some records)
    (r : SessionRecord M B) : (d.write object r).objects[object]? = some (records ++ [r]) := by
  simp [SessionDisk.write, h]

theorem objects_create (d : SessionDisk M B) (records : List (SessionRecord M B)) :
    (d.create records).objects[d.next]? = some records := by
  simp [SessionDisk.create, SessionDisk.next]

/-- Where the file is settled, the writer is there or is opened on it. -/
theorem ensurePersistWriter_of_writer (htarget : s.disk.target = some object)
    (hwriter : s.persistWriter = none ∨ s.persistWriter = some ⟨object, false⟩) :
    s.ensurePersistWriter = (some object, { s with persistWriter := some ⟨object, false⟩ }) := by
  rcases hwriter with hnone | hsome
  · simp only [ensurePersistWriter, hnone, htarget]
  · cases s
    simp only at hsome
    subst hsome
    rfl

/-! ## Appends -/

section
variable (h : Invariant codec s)
include h

/-- The state after an append, by the way `_persist` takes. -/
theorem appendEntry_of_staysInMemory (hstays : StaysInMemory codec s entry) :
    s.appendEntry codec entry = { s with entries := s.entries ++ [entry] } := by
  obtain ⟨hensured, hnone⟩ := hstays
  have hflushed := h.flags.symm.trans hensured
  rw [appendEntry, persist, if_neg (by simp [h.noError]), if_pos (by simp [hensured, hnone])]
  cases s
  simp_all

theorem appendEntry_of_cold (hstays : ¬ StaysInMemory codec s entry) (hflushed : s.flushed = false)
    : s.appendEntry codec entry =
      rewriteFileSync codec { s with entries := s.entries ++ [entry] } := by
  have hgoes : ¬ ((!s.ensuredOnDisk && !hasAssistant codec (s.entries ++ [entry])) = true) := by
    intro hand
    exact hstays (by simpa [StaysInMemory] using hand)
  rw [appendEntry, persist, if_neg (by simp [h.noError]), if_neg hgoes, if_pos (by simp [hflushed])]

/-- With the flags set, `_persist` gets as far as the writer, which is on the file. -/
theorem appendEntry_of_writer (hflushed : s.flushed = true) (htarget : s.disk.target = some object)
    (hwriter : s.persistWriter = none ∨ s.persistWriter = some ⟨object, false⟩) :
    s.appendEntry codec entry = { s with
      entries := s.entries ++ [entry]
      persistWriter := some ⟨object, false⟩
      disk := s.disk.write object (.entry (codec.prepareEntry entry)) } := by
  have hensured := h.flags.trans hflushed
  rw [appendEntry, persist, if_neg (by simp [h.noError]), if_neg (by simp [hensured]),
    if_neg (by simp [hflushed, h.noRewrite]),
    ensurePersistWriter_of_writer (s := { s with entries := s.entries ++ [entry] }) htarget hwriter]

theorem appendEntry_of_closing {writer : PersistWriter} (hflushed : s.flushed = true)
    (hwriter : s.persistWriter = some writer) (hclosing : writer.closing = true) :
    s.appendEntry codec entry =
      { s with entries := s.entries ++ [entry], queue := s.queue ++ [.rewrite] } := by
  have hensured := h.flags.trans hflushed
  rw [appendEntry, persist, if_neg (by simp [h.noError]), if_neg (by simp [hensured]),
    if_neg (by simp [hflushed, h.noRewrite])]
  simp only [ensurePersistWriter, hwriter, hclosing, if_true]
  rfl

theorem append_cases (entry : SessionEntry M B) :
    (s.flushed = false ∧ StaysInMemory codec s entry) ∨
      (s.flushed = false ∧ ¬ StaysInMemory codec s entry) ∨
      (s.flushed = true ∧ AppendsToFile codec s entry) := by
  cases hflushed : s.flushed with
  | true =>
    exact .inr (.inr ⟨rfl, .inl (h.flags.trans hflushed), h.noRewrite, hflushed⟩)
  | false =>
    by_cases hstays : StaysInMemory codec s entry
    · exact .inl ⟨rfl, hstays⟩
    · exact .inr (.inl ⟨rfl, hstays⟩)

end

theorem settled_write (entry : SessionEntry M B) (htarget : s.disk.target = some object)
    (hrecords : s.disk.objects[object]? = some records)
    (hdescribes : Describes codec s records ∨ .rewrite ∈ s.queue) :
    Settled codec { s with
      entries := s.entries ++ [entry]
      persistWriter := some ⟨object, false⟩
      disk := s.disk.write object (.entry (codec.prepareEntry entry)) } := by
  refine ⟨object, records ++ [.entry (codec.prepareEntry entry)], htarget,
    objects_write hrecords _, .inr rfl, ?_⟩
  rcases hdescribes with ⟨header, hparse, hversion, hsettle⟩ | hqueued
  · refine .inl ⟨header, ?_, hversion, hsettle⟩
    rw [parseSessionEntries_snoc_entry hparse]
    simp [preparedEntries]
  · exact .inr hqueued

section
variable (h : Invariant codec s)
include h

theorem settled_rewriteFileSync (entries : List (SessionEntry M B)) :
    Settled codec (rewriteFileSync codec { s with entries }) :=
  ⟨s.disk.next, _, rfl, objects_create s.disk _, .inl rfl,
    .inl (describes_image (s := rewriteFileSync codec { s with entries }) h.renamings h.absorbed
      h.version)⟩

theorem Invariant.staysInMemory (hflushed : s.flushed = false)
    (hsafe : SafeAppend codec s entry s.running) (hstays : StaysInMemory codec s entry) :
    Invariant codec { s with entries := s.entries ++ [entry] } := by
  refine ⟨h.noError, h.version, h.noRewrite, h.flags, h.renamings, h.absorbed, h.fresh, ?_⟩
  intro stage hrunning
  have hstage := h.stage stage hrunning
  rw [show s.running = stage from hrunning] at hsafe
  cases stage with
  | none =>
    rcases hstage with ⟨htrue, _⟩ | ⟨_, hreleased⟩
    · exact absurd htrue (by simp [hflushed])
    · exact .inr ⟨hflushed, hreleased⟩
  | some stage =>
    cases stage with
    | closing => exact absurd hstage.1 (by simp [hflushed])
    | released => exact hstage
    | preparing header entries | writing object rest | replacing object => exact hsafe.elim
    | renamed => exact absurd hstays hsafe
    | patching object patch => exact absurd hstage.1 (by simp [hflushed])

theorem Invariant.rewriteFileSync (hflushed : s.flushed = false)
    (hsafe : SafeAppend codec s entry s.running) : Invariant codec
      (SessionManager.rewriteFileSync codec { s with entries := s.entries ++ [entry] }) := by
  have hsettled := settled_rewriteFileSync h (s.entries ++ [entry])
  refine ⟨h.noError, h.version, rfl, rfl, h.renamings, h.absorbed, ?_, ?_⟩
  · intro hnone
    exact absurd hsettled.fileExists (by simp [hnone])
  · intro stage hrunning
    have hstage := h.stage stage hrunning
    rw [show s.running = stage from hrunning] at hsafe
    cases stage with
    | none => exact .inl ⟨rfl, hsettled⟩
    | some stage =>
      cases stage with
      | closing => exact absurd hstage.1 (by simp [hflushed])
      | released => exact ⟨rfl, hsettled.fileExists⟩
      | preparing header entries | writing object rest | replacing object => exact hsafe.elim
      | renamed => exact hsettled
      | patching object patch => exact absurd hstage.1 (by simp [hflushed])

/-- A queued rewrite changes nothing that matters before it runs. -/
theorem Invariant.rewriteFile : Invariant codec s.rewriteFile := by
  have hpending : s.rewriteFile.pendingPatches = s.pendingPatches := by
    simp [SessionManager.rewriteFile, pendingPatches, patchOf]
  have hdescribes : ∀ records, Describes codec s records →
      Describes codec s.rewriteFile records := by
    rintro records ⟨header, hparse, hversion, hsettle⟩
    exact ⟨header, hparse, hversion, by rw [hpending]; exact hsettle⟩
  have hsettled : Settled codec s → Settled codec s.rewriteFile := by
    rintro ⟨object, records, htarget, hrecords, hwriter, _⟩
    exact ⟨object, records, htarget, hrecords, hwriter,
      .inr (mem_append_right _ mem_cons_self)⟩
  refine ⟨h.noError, h.version, h.noRewrite, h.flags, ?_, ?_, ?_, ?_⟩
  · rw [hpending]
    exact h.renamings
  · rw [hpending]
    exact h.absorbed
  · rw [hpending]
    exact h.fresh
  · intro stage hrunning
    have hstage := h.stage stage hrunning
    cases stage with
    | none => exact hstage.imp (fun h => ⟨h.1, hsettled h.2⟩) id
    | some stage =>
      cases stage with
      | closing | released => exact hstage
      | preparing header entries =>
        obtain ⟨hreleased, hentries, hheader⟩ := hstage
        refine ⟨hreleased, hentries, ?_⟩
        cases header with
        | none => exact hheader
        | some header => exact ⟨hheader.1, by rw [hpending]; exact hheader.2⟩
      | writing object rest =>
        obtain ⟨hreleased, records, hrecords, hd⟩ := hstage
        exact ⟨hreleased, records, hrecords, hdescribes _ hd⟩
      | replacing object =>
        obtain ⟨hreleased, records, hrecords, hd⟩ := hstage
        exact ⟨hreleased, records, hrecords, hdescribes _ hd⟩
      | renamed => exact hsettled hstage
      | patching object patch => exact ⟨hstage.1, hsettled hstage.2.1, hstage.2.2⟩

/-- An entry that comes while the writer closes is left to the rewrite and to one
more. -/
theorem Invariant.appendWhileClosing (entry : SessionEntry M B)
    (hrunning : s.running = some .closing) :
    Invariant codec { s with entries := s.entries ++ [entry] } := by
  refine ⟨h.noError, h.version, h.noRewrite, h.flags, h.renamings, h.absorbed, h.fresh, ?_⟩
  intro stage hstage
  obtain rfl : some .closing = stage := hrunning.symm.trans hstage
  exact h.stage (some .closing) hrunning

theorem Invariant.writeEntry (hflushed : s.flushed = true) (hsettled : Settled codec s)
    (hrunning : s.running = none ∨ s.running = some .renamed ∨ ∃ object patch, s.running = some
      (.patching object patch)) : Invariant codec (s.appendEntry codec entry) := by
  obtain ⟨object, records, htarget, hrecords, hwriter, hdescribes⟩ := hsettled
  have hsettled' := settled_write entry htarget hrecords hdescribes
  rw [appendEntry_of_writer h hflushed htarget hwriter]
  refine ⟨h.noError, h.version, h.noRewrite, h.flags, h.renamings, h.absorbed, h.fresh, ?_⟩
  intro stage hs
  rcases hrunning with hrun | hrun | ⟨object', patch, hrun⟩
  · obtain rfl := hrun.symm.trans hs
    exact .inl ⟨hflushed, hsettled'⟩
  · obtain rfl := hrun.symm.trans hs
    exact hsettled'
  · obtain ⟨_, _, hpatching⟩ := h.stage _ hrun
    obtain rfl := hrun.symm.trans hs
    refine ⟨hflushed, hsettled', ?_⟩
    rcases hwriter with hnone | hsome
    · rw [hnone] at hpatching
      cases hpatching
    · exact hsome.symm.trans hpatching

theorem Invariant.appendEntry (hsafe : SafeAppend codec s entry s.running) :
    Invariant codec (s.appendEntry codec entry) := by
  rcases append_cases h entry with ⟨hflushed, hstays⟩ | ⟨hflushed, hstays⟩ | ⟨hflushed, happends⟩
  · rw [appendEntry_of_staysInMemory h hstays]
    exact h.staysInMemory hflushed hsafe hstays
  · rw [appendEntry_of_cold h hstays hflushed]
    exact h.rewriteFileSync hflushed hsafe
  · cases hrunning : s.running with
    | none =>
      rcases h.stage _ hrunning with ⟨_, hsettled⟩ | ⟨hfalse, _⟩
      · exact h.writeEntry hflushed hsettled (.inl hrunning)
      · exact absurd hflushed (by simp [hfalse])
    | some stage =>
      rw [hrunning] at hsafe
      have hstage := h.stage _ hrunning
      cases stage with
      | closing =>
        obtain ⟨_, _, writer, hwriter, hclosing⟩ := hstage
        rw [appendEntry_of_closing h hflushed hwriter hclosing]
        exact (h.appendWhileClosing entry hrunning).rewriteFile
      | released => exact absurd happends hsafe
      | preparing header entries | writing object rest | replacing object => exact hsafe.elim
      | renamed => exact h.writeEntry hflushed hstage (.inr (.inl hrunning))
      | patching object patch =>
        exact h.writeEntry hflushed hstage.2.1 (.inr (.inr ⟨object, patch, hrunning⟩))

end

/-! ## Renamings -/

theorem isRenaming_setSessionName (name : JsString) (source : TitleSource) :
    IsRenaming (titlePatch (sanitizeName name) source) := by
  refine ⟨_, _, rfl, ?_⟩
  have hlen : (sanitizeName name).length ≤ sessionNameMaxChars := length_take_le _ _
  simp only [sessionNameMaxChars, maxPersistChars] at hlen ⊢
  omega

/-- With no file yet, the header changes in memory alone. -/
theorem Invariant.renameUnsaved (h : Invariant codec s) {p : HeaderPatch} (hp : IsRenaming p)
    (hsafe : SafeRenaming s s.running) (hnone : s.fileExists = false) (titleSource : Option TitleSource) :
    Invariant codec { s with header := applyHeaderPatch s.header p, titleSource } := by
  have hpending := h.fresh hnone
  refine ⟨h.noError, ?_, h.noRewrite, h.flags, h.renamings, ?_, h.fresh, ?_⟩
  · exact h.version
  · exact congrArg (settle (applyHeaderPatch s.header p)) hpending
  · intro stage hrunning
    have hstage := h.stage stage hrunning
    rw [show s.running = stage from hrunning] at hsafe
    cases stage with
    | none =>
      rcases hstage with ⟨_, hsettled⟩ | hcold
      · exact absurd hsettled.fileExists (by simp [hnone])
      · exact .inr hcold
    | some stage =>
      cases stage with
      | closing => exact absurd hstage.2.1 (by simp [hnone])
      | released => exact hstage
      | preparing header entries =>
        cases header with
        | none =>
          obtain ⟨hreleased, hentries, hheader⟩ := hstage
          refine ⟨hreleased, hentries, ?_⟩
          show prepareHeader (applyHeaderPatch s.header p) = applyHeaderPatch s.header p
          rw [prepareHeader_applyHeaderPatch hp, hheader]
        | some header => exact absurd hsafe (by simp [SafeRenaming, hnone])
      | writing object rest | replacing object => exact absurd hsafe (by simp [SafeRenaming, hnone])
      | renamed => exact absurd hstage.fileExists (by simp [hnone])
      | patching object patch => exact absurd hstage.2.1.fileExists (by simp [hnone])

/-- The state with a patch in memory and in the queue. -/
def patchQueued (p : HeaderPatch) (titleSource : Option TitleSource) : SessionManager M B :=
  { s with header := applyHeaderPatch s.header p, titleSource, queue := s.queue ++ [.patch p] }

theorem pendingPatches_patchQueued (p : HeaderPatch) (titleSource : Option TitleSource) :
    (s.patchQueued p titleSource).pendingPatches = s.pendingPatches ++ [p] := by
  simp [patchQueued, pendingPatches, patchOf]

/-- What described memory before describes it with the patch on its way. -/
theorem settle_patchQueued {p : HeaderPatch} (hp : IsRenaming p) {header : SessionHeader}
    (h : settle header s.pendingPatches = prepareHeader s.header)
    (titleSource : Option TitleSource) :
    settle header (s.patchQueued p titleSource).pendingPatches =
      prepareHeader (s.patchQueued p titleSource).header := by
  rw [pendingPatches_patchQueued, settle_snoc, h]
  exact (prepareHeader_applyHeaderPatch hp s.header).symm

theorem Describes.patchQueued {p : HeaderPatch} (hp : IsRenaming p) (h : Describes codec s records)
    (titleSource : Option TitleSource) : Describes codec (s.patchQueued p titleSource) records := by
  obtain ⟨header, hparse, hversion, hsettle⟩ := h
  exact ⟨header, hparse, hversion, settle_patchQueued hp hsettle titleSource⟩

theorem Settled.patchQueued {p : HeaderPatch} (hp : IsRenaming p) (h : Settled codec s)
    (titleSource : Option TitleSource) : Settled codec (s.patchQueued p titleSource) := by
  obtain ⟨object, records, htarget, hrecords, hwriter, hd⟩ := h
  exact ⟨object, records, htarget, hrecords, hwriter,
    hd.imp (fun hd => hd.patchQueued hp titleSource) (mem_append_left _)⟩

section
variable (h : Invariant codec s)
include h

theorem Invariant.renameSaved {p : HeaderPatch} (hp : IsRenaming p) (hexists : s.fileExists = true)
    (titleSource : Option TitleSource) : Invariant codec (s.patchQueued p titleSource) := by
  have hpending : (s.patchQueued p titleSource).pendingPatches = s.pendingPatches ++ [p] :=
    pendingPatches_patchQueued p titleSource
  refine ⟨h.noError, h.version, h.noRewrite, h.flags, ?_, ?_, ?_, ?_⟩
  · intro q hq
    rw [hpending] at hq
    rcases mem_append.mp hq with hq | hq
    · exact h.renamings q hq
    · rw [mem_singleton.mp hq]
      exact hp
  · rw [hpending]
    exact settle_snoc_self h.renamings hp
  · intro hnone
    exact absurd hexists (by simp [show s.fileExists = false from hnone])
  · intro stage hrunning
    have hstage := h.stage stage hrunning
    cases stage with
    | none => exact hstage.imp (And.imp_right (fun hset => hset.patchQueued hp titleSource)) id
    | some stage =>
      cases stage with
      | closing | released => exact hstage
      | preparing header entries =>
        obtain ⟨hreleased, hentries, hheader⟩ := hstage
        refine ⟨hreleased, hentries, ?_⟩
        cases header with
        | none =>
          show prepareHeader (applyHeaderPatch s.header p) = applyHeaderPatch s.header p
          rw [prepareHeader_applyHeaderPatch hp, hheader]
        | some header => exact ⟨hheader.1, settle_patchQueued hp hheader.2 titleSource⟩
      | writing object rest =>
        obtain ⟨hreleased, records, hrecords, hd⟩ := hstage
        exact ⟨hreleased, records, hrecords, hd.patchQueued hp titleSource⟩
      | replacing object =>
        obtain ⟨hreleased, records, hrecords, hd⟩ := hstage
        exact ⟨hreleased, records, hrecords, hd.patchQueued hp titleSource⟩
      | renamed => exact hstage.patchQueued hp titleSource
      | patching object patch =>
        exact ⟨hstage.1, hstage.2.1.patchQueued hp titleSource, hstage.2.2⟩

theorem Invariant.setSessionName (hsafe : SafeRenaming s s.running) (name : JsString)
    (source : TitleSource) : Invariant codec (s.setSessionName name source) := by
  have hp := isRenaming_setSessionName name source
  rw [SessionManager.setSessionName]
  split
  · exact h
  · split
    · exact h
    · rw [appendHeaderPatch, persistPatch]
      split
      · rename_i hexists
        exact h.renameSaved hp hexists (some source)
      · rename_i hnone
        exact h.renameUnsaved hp hsafe ((Bool.not_eq_true _).mp hnone) (some source)

/-! ## The queue -/

/-- A rewrite starts: nothing is asked of the old file any more. -/
theorem Invariant.startRewrite (hrunning : s.running = none) {rest : List PersistTask}
    (hqueue : s.queue = .rewrite :: rest) :
    Invariant codec (SessionManager.startRewrite { s with queue := rest }) := by
  have hpending : s.pendingPatches = rest.filterMap patchOf := by
    rw [pendingPatches, hrunning, hqueue]
    rfl
  have hstage := h.stage none hrunning
  have hrenamings := h.renamings
  have habsorbed := h.absorbed
  have hfresh := h.fresh
  rw [hpending] at hrenamings habsorbed hfresh
  unfold SessionManager.startRewrite
  split
  · rename_i writer hwriter
    refine ⟨h.noError, h.version, h.noRewrite, h.flags, hrenamings, habsorbed, hfresh, ?_⟩
    rintro stage rfl
    rcases hstage with ⟨hflushed, hsettled⟩ | ⟨_, hnone, _⟩
    · exact ⟨hflushed, hsettled.fileExists, _, rfl, rfl⟩
    · exact absurd hwriter (by simp [hnone])
  · rename_i hwriter
    refine ⟨h.noError, h.version, h.noRewrite, h.flags, hrenamings, habsorbed, hfresh, ?_⟩
    rintro stage rfl
    rcases hstage with ⟨hflushed, hsettled⟩ | ⟨_, hreleased⟩
    · exact ⟨hwriter, hsettled.fileExists.trans hflushed.symm⟩
    · exact hreleased

/-- A patch starts: there is a file, and a writer for it. -/
theorem Invariant.startPatch (hrunning : s.running = none) {rest : List PersistTask}
    {p : HeaderPatch} (hqueue : s.queue = .patch p :: rest) :
    Invariant codec (startTask { s with queue := rest } (.patch p)) := by
  have hpending : s.pendingPatches = p :: rest.filterMap patchOf := by
    rw [pendingPatches, hrunning, hqueue]
    rfl
  rcases h.stage none hrunning with ⟨hflushed, hsettled⟩ | ⟨hflushed, _, hexists⟩
  · obtain ⟨object, records, htarget, hrecords, hwriter, hd⟩ := hsettled
    have hstart : startTask { s with queue := rest } (.patch p) = { s with
        queue := rest
        persistWriter := some ⟨object, false⟩
        running := some (.patching object p) } := by
      rw [startTask, if_neg (by simp [hflushed, h.noRewrite, h.version]),
        ensurePersistWriter_of_writer (s := { s with queue := rest }) htarget hwriter]
    have hrenamings := h.renamings
    have habsorbed := h.absorbed
    rw [hpending] at hrenamings habsorbed
    rw [hstart]
    refine ⟨h.noError, h.version, h.noRewrite, h.flags, hrenamings, habsorbed, ?_, ?_⟩
    · intro hnone
      exact absurd (h.fresh hnone) (by simp [hpending])
    · rintro stage rfl
      refine ⟨hflushed, ⟨object, records, htarget, hrecords, .inr rfl, ?_⟩, rfl⟩
      rcases hd with ⟨header, hparse, hversion, hsettle⟩ | hmem
      · rw [hpending] at hsettle
        exact .inl ⟨header, hparse, hversion, hsettle⟩
      · rw [hqueue] at hmem
        exact .inr ((mem_cons.mp hmem).resolve_left (by simp))
  · -- without a file no patch is queued
    exact absurd (h.fresh (hexists.trans hflushed)) (by simp [hpending])

/-- The invariant where only the stage, the writer and the file objects have
changed. -/
theorem Invariant.of_stage {stage stage' : PersistStage M B} (hrunning : s.running = some stage)
    (hpatch : runningPatch (some stage) = []) (hpatch' : runningPatch (some stage') = [])
    (writer : Option PersistWriter) (disk : SessionDisk M B) (htarget : disk.target = s.disk.target)
    (hstage : StageHolds codec { s with running := some stage', persistWriter := writer, disk }
      (some stage')) :
    Invariant codec { s with running := some stage', persistWriter := writer, disk } := by
  have hpending : pendingPatches
      { s with running := some stage', persistWriter := writer, disk } = s.pendingPatches := by
    simp only [pendingPatches, hrunning, hpatch, hpatch']
  refine ⟨h.noError, h.version, h.noRewrite, h.flags, ?_, ?_, ?_, ?_⟩
  · rw [hpending]
    exact h.renamings
  · rw [hpending]
    exact h.absorbed
  · rw [hpending, SessionManager.fileExists, htarget]
    exact h.fresh
  · rintro stage'' rfl
    exact hstage

/-- The snapshot: the header is prepared, or goes on living. -/
theorem Invariant.prepare (hrunning : s.running = some .released) :
    Invariant codec (continueTask codec s .released) := by
  refine h.of_stage hrunning rfl rfl s.persistWriter s.disk rfl ?_
  refine ⟨h.stage _ hrunning, rfl, ?_⟩
  have hpending : s.pendingPatches = s.queue.filterMap patchOf := by
    rw [pendingPatches, hrunning]
    rfl
  have habsorbed := h.absorbed
  have hrenamings := h.renamings
  rw [hpending] at habsorbed hrenamings
  unfold prepareLiveHeader
  by_cases hsame : prepareHeader s.header = s.header
  · rw [if_pos hsame]
    exact hsame
  · rw [if_neg hsame]
    refine ⟨h.version, ?_⟩
    show settle (prepareHeader s.header) (s.queue.filterMap patchOf) = prepareHeader s.header
    rw [settle_prepareHeader hrenamings, habsorbed]

theorem Invariant.openTemporary {header : Option SessionHeader} {entries : List (SessionEntry M B)}
    (hrunning : s.running = some (.preparing header entries)) :
    Invariant codec (continueTask codec s (.preparing header entries)) := by
  obtain ⟨hreleased, rfl, hheader⟩ := h.stage _ hrunning
  refine h.of_stage hrunning rfl rfl s.persistWriter (s.disk.create []) rfl ?_
  refine ⟨hreleased, [], objects_create s.disk [], ?_⟩
  have hpending : s.pendingPatches = s.queue.filterMap patchOf := by
    rw [pendingPatches, hrunning]
    rfl
  refine ⟨header.getD s.header, parseSessionEntries_record _, ?_, ?_⟩
  · cases header with
    | none => exact h.version
    | some header => exact hheader.1
  · show settle (header.getD s.header) (s.queue.filterMap patchOf) = prepareHeader s.header
    rw [← hpending]
    cases header with
    | none => exact h.absorbed.trans hheader.symm
    | some header => exact hheader.2

theorem Invariant.writeLine {r : SessionRecord M B} {rest : List (SessionRecord M B)}
    (hrunning : s.running = some (.writing object (r :: rest))) :
    Invariant codec (continueTask codec s (.writing object (r :: rest))) := by
  obtain ⟨hreleased, records, hrecords, header, hparse, hversion, hsettle⟩ := h.stage _ hrunning
  refine h.of_stage hrunning rfl rfl s.persistWriter (s.disk.write object r) rfl ?_
  refine ⟨hreleased, records ++ [r], objects_write hrecords r, header, ?_, hversion, ?_⟩
  · rw [append_assoc]
    exact hparse
  · rw [pendingPatches, hrunning] at hsettle
    exact hsettle

theorem Invariant.closeTemporary (hrunning : s.running = some (.writing object [])) :
    Invariant codec (continueTask codec s (.writing object [])) := by
  obtain ⟨hreleased, records, hrecords, header, hparse, hversion, hsettle⟩ := h.stage _ hrunning
  refine h.of_stage hrunning rfl rfl s.persistWriter s.disk rfl ?_
  refine ⟨hreleased, records, hrecords, header, ?_, hversion, ?_⟩
  · rw [append_nil] at hparse
    exact hparse
  · rw [pendingPatches, hrunning] at hsettle
    exact hsettle

/-- The rename: the temporary file is the session file. -/
theorem Invariant.replace (hrunning : s.running = some (.replacing object)) :
    Invariant codec (continueTask codec s (.replacing object)) := by
  obtain ⟨⟨hwriter, _⟩, records, hrecords, header, hparse, hversion, hsettle⟩ :=
    h.stage _ hrunning
  have hrenamings := h.renamings
  have habsorbed := h.absorbed
  rw [pendingPatches, hrunning] at hsettle hrenamings habsorbed
  refine ⟨h.noError, h.version, h.noRewrite, h.flags, hrenamings, habsorbed, ?_, ?_⟩
  · exact fun hnone => absurd hnone (by simp [continueTask, SessionManager.fileExists,
      SessionDisk.rename])
  · rintro stage rfl
    exact ⟨object, records, rfl, hrecords, .inl hwriter, .inl ⟨header, hparse, hversion, hsettle⟩⟩

theorem Invariant.finish (hrunning : s.running = some .renamed) :
    Invariant codec (continueTask codec s .renamed) := by
  have hstage := h.stage _ hrunning
  have hexists := hstage.fileExists
  obtain ⟨object, records, htarget, hrecords, hwriter, hd⟩ := hstage
  have hrenamings := h.renamings
  have habsorbed := h.absorbed
  rw [pendingPatches, hrunning] at hrenamings habsorbed
  refine ⟨h.noError, h.version, rfl, rfl, hrenamings, habsorbed, ?_, ?_⟩
  · exact fun hnone => absurd hexists (by simp [show s.fileExists = false from hnone])
  · rintro stage rfl
    refine .inl ⟨rfl, object, records, htarget, hrecords, hwriter, ?_⟩
    rcases hd with ⟨header, hparse, hversion, hsettle⟩ | hmem
    · rw [pendingPatches, hrunning] at hsettle
      exact .inl ⟨header, hparse, hversion, hsettle⟩
    · exact .inr hmem

theorem Invariant.writePatch {p : HeaderPatch} (hrunning : s.running = some (.patching object p)) :
    Invariant codec (continueTask codec s (.patching object p)) := by
  obtain ⟨hflushed, hsettled, hpatching⟩ := h.stage _ hrunning
  have hexists := hsettled.fileExists
  obtain ⟨object', records, htarget, hrecords, hwriter, hd⟩ := hsettled
  obtain rfl : object = object' := by
    rcases hwriter with hnone | hsome
    · rw [hnone] at hpatching
      cases hpatching
    · cases hpatching.symm.trans hsome
      rfl
  have hpending : s.pendingPatches = p :: s.queue.filterMap patchOf := by
    rw [pendingPatches, hrunning]
    rfl
  have hrenamings := h.renamings
  have habsorbed := h.absorbed
  rw [hpending] at hrenamings habsorbed
  have hwrite : continueTask codec s (.patching object p) =
      { s with disk := s.disk.write object (.headerPatch p), running := none } := if_pos hpatching
  rw [hwrite]
  refine ⟨h.noError, h.version, h.noRewrite, h.flags,
    fun q hq => hrenamings q (mem_cons_of_mem _ hq), settle_tail hrenamings habsorbed, ?_, ?_⟩
  · exact fun hnone => absurd hexists (by simp [show s.fileExists = false from hnone])
  · rintro stage rfl
    refine .inl ⟨hflushed, object, records ++ [.headerPatch p], htarget,
      objects_write hrecords _, .inr hpatching, ?_⟩
    rcases hd with ⟨header, hparse, hversion, hsettle⟩ | hmem
    · rw [hpending] at hsettle
      exact .inl ⟨applyHeaderPatch header p, parseSessionEntries_snoc_patch hparse hversion p,
        hversion, hsettle⟩
    · exact .inr hmem

/-- The queue's next piece of work keeps the invariant. -/
theorem Invariant.advance {s' : SessionManager M B} (hs' : s.advance codec = some s') :
    Invariant codec s' := by
  unfold SessionManager.advance at hs'
  split at hs'
  · rename_i stage hrunning
    cases hs'
    cases stage with
    | closing =>
      obtain ⟨hflushed, hexists, _⟩ := h.stage _ hrunning
      exact h.of_stage hrunning rfl rfl none s.disk rfl ⟨rfl, hexists.trans hflushed.symm⟩
    | released => exact h.prepare hrunning
    | preparing header entries => exact h.openTemporary hrunning
    | writing object rest =>
      cases rest with
      | nil => exact h.closeTemporary hrunning
      | cons r rest => exact h.writeLine hrunning
    | replacing object => exact h.replace hrunning
    | renamed => exact h.finish hrunning
    | patching object p => exact h.writePatch hrunning
  · rename_i task rest hrunning hqueue
    cases hs'
    rw [if_neg (by simp [h.noError])]
    cases task with
    | rewrite => exact h.startRewrite hrunning hqueue
    | patch p => exact h.startPatch hrunning hqueue
  · cases hs'

end

/-! ## Runs -/

theorem Invariant.step (h : Invariant codec s) {a : Action M B} (hsafe : Safe codec s a)
    {s' : SessionManager M B} (hs' : s.step codec a = some s') : Invariant codec s' := by
  cases a with
  | append entry =>
    cases hs'
    exact h.appendEntry hsafe
  | setSessionName name source =>
    cases hs'
    exact h.setSessionName hsafe name source
  | rewriteFile =>
    cases hs'
    exact h.rewriteFile
  | ensureOnDisk =>
    cases hs'
    unfold SessionManager.ensureOnDisk
    split
    · exact h
    · exact h.rewriteFile
  | advance => exact h.advance hs'

theorem Invariant.run (h : Invariant codec s) {actions : List (Action M B)}
    (hsafe : SafeAlong codec actions s) {s' : SessionManager M B}
    (hs' : SessionManager.run codec actions s = some s') : Invariant codec s' := by
  induction actions generalizing s with
  | nil =>
    cases hs'
    exact h
  | cons a rest ih =>
    obtain ⟨s₁, hstep, hrun⟩ := bind_eq_some_iff.mp hs'
    obtain ⟨hfirst, hrest⟩ := hsafe
    rw [hstep] at hrest
    exact ih (h.step hfirst hstep) hrest hrun

theorem Fresh.invariant (h : Fresh s) : Invariant codec s := by
  obtain ⟨hflushed, hrewrite, hensured⟩ := h.flags
  obtain ⟨hqueue, hrunning⟩ := h.idle
  have hpending : s.pendingPatches = [] := by
    rw [pendingPatches, hrunning, hqueue]
    rfl
  have hexists : s.fileExists = false := by
    rw [SessionManager.fileExists, h.noFile]
    rfl
  refine ⟨h.noError, h.version, hrewrite, hensured.trans hflushed.symm, ?_, ?_, fun _ => hpending,
    ?_⟩
  · simp [hpending]
  · rw [hpending]
    rfl
  · intro stage hstage
    obtain rfl := hrunning.symm.trans hstage
    exact .inr ⟨hflushed, h.noWriter, hexists.trans hflushed.symm⟩

theorem Opened.invariant (h : Opened codec s) : Invariant codec s := by
  obtain ⟨hflushed, hrewrite, hensured⟩ := h.flags
  obtain ⟨hqueue, hrunning⟩ := h.idle
  obtain ⟨hexists, hvalid⟩ := h.file
  have hpending : s.pendingPatches = [] := by
    rw [pendingPatches, hrunning, hqueue]
    rfl
  refine ⟨h.noError, h.version, hrewrite, hensured.trans hflushed.symm, ?_, ?_, fun _ => hpending,
    ?_⟩
  · simp [hpending]
  · rw [hpending]
    rfl
  · intro stage hstage
    obtain rfl := hrunning.symm.trans hstage
    obtain ⟨object, htarget⟩ := isSome_iff_exists.mp hexists
    have hrecords := getElem?_eq_getElem (hvalid object htarget)
    have hagrees := h.agrees
    rw [SessionDisk.sessionFile, htarget, bind_some, hrecords, getD_some] at hagrees
    refine .inl ⟨hflushed, object, _, htarget, hrecords, .inl h.noWriter,
      .inl ⟨prepareHeader s.header, hagrees, h.version, ?_⟩⟩
    rw [hpending]
    rfl

theorem Invariant.keepsUp (h : Invariant codec s) : KeepsUp codec s := by
  rintro ⟨hqueue, hrunning⟩ hdisk
  rcases h.stage none hrunning with ⟨_, hsettled⟩ | ⟨hflushed, _, hexists⟩
  · refine ⟨hsettled.fileExists, ?_⟩
    obtain ⟨object, records, htarget, hrecords, _, hd⟩ := hsettled
    rcases hd with ⟨header, hparse, _, hsettle⟩ | hmem
    · rw [pendingPatches, hrunning, hqueue] at hsettle
      rw [SessionDisk.sessionFile, htarget, bind_some, hrecords, getD_some, hparse]
      exact congrArg (transcript · _) hsettle
    · simp [hqueue] at hmem
  · exfalso
    rcases hdisk with hfile | hensured
    · simp [hexists, hflushed] at hfile
    · simp [h.flags, hflushed] at hensured

/-- **The session file keeps up with memory along every run of safe actions**, from a
new session or from one that was opened. -/
theorem safe_run_keepsUp (codec : EntryCodec M B) {s s' : SessionManager M B}
    (hstart : Fresh s ∨ Opened codec s) (actions : List (Action M B))
    (hsafe : SafeAlong codec actions s) (hrun : s.run codec actions = some s') :
    KeepsUp codec s' := by
  have hinv : Invariant codec s := hstart.elim Fresh.invariant Opened.invariant
  exact (hinv.run hsafe hrun).keepsUp

/-- Messages are their roles, and nothing is externalized. -/
def roleCodec : EntryCodec JsString JsString where
  isAssistant := fun role => role = js "assistant"
  prepareEntry := id

/-- A new session in `/w`. -/
def newSession : SessionManager JsString JsString where
  header := ⟨some currentSessionVersion, js "s1", none, none, js "t0", js "/w", none⟩
  entries := []
  titleSource := none
  flushed := false
  needsFullRewriteOnNextPersist := false
  ensuredOnDisk := false
  persistError := false
  persistWriter := none
  queue := []
  running := none
  disk := ⟨[], none⟩

theorem fresh_newSession : Fresh newSession :=
  ⟨rfl, rfl, ⟨rfl, rfl, rfl⟩, rfl, rfl, ⟨rfl, rfl⟩, rfl⟩

/-- Two messages, and a third one while the writer is being closed. -/
def busyActions : List (Action JsString JsString) :=
  [.append (.message (js "1") (js "user")), .append (.message (js "2") (js "assistant")),
    .append (.message (js "3") (js "user")), .rewriteFile, .setSessionName (js "name") .user,
    .advance, .append (.message (js "4") (js "assistant"))] ++ List.replicate 25 .advance

/-- Where they lead. -/
def busyEnd : SessionManager JsString JsString :=
  (newSession.run roleCodec busyActions).getD newSession

/-- All of them safe: in the end the name and the four messages are in the file. -/
theorem safe_run_keepsUp_busy : busyEnd.Idle ∧ busyEnd.OnDisk ∧
    parseSessionEntries busyEnd.disk.sessionFile = busyEnd.image roleCodec := by
  have hidle : busyEnd.Idle := by decide
  have hdisk : busyEnd.OnDisk := by decide
  refine ⟨hidle, hdisk, ?_⟩
  exact (safe_run_keepsUp roleCodec (.inl fresh_newSession) busyActions (by decide)
    (by decide) hidle hdisk).2

/-- A message that comes between the snapshot of a rewrite and its rename. -/
def lostActions : List (Action JsString JsString) :=
  [.append (.message (js "1") (js "assistant")), .rewriteFile, .advance, .advance,
    .append (.message (js "2") (js "user"))] ++ List.replicate 6 .advance

/-- Where it leads. -/
def lostEnd : SessionManager JsString JsString :=
  (newSession.run roleCodec lostActions).getD newSession

/-- The message is appended to the file that is then replaced. -/
theorem append_during_rewrite_lost :
    ¬ ∀ (s s' : SessionManager JsString JsString) (actions : List (Action JsString JsString)),
      (Fresh s ∨ Opened roleCodec s) → s.run roleCodec actions = some s' →
        KeepsUp roleCodec s' := by
  intro hclaim
  have hkeeps := hclaim newSession lostEnd lostActions (.inl fresh_newSession) (by decide)
  have hfile := (hkeeps (by decide) (by decide)).2
  exact absurd hfile (by decide)

end SessionManager
end GajaeCode
