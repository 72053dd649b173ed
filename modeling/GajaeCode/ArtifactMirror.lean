import GajaeCode.OutputSinkWindows

/-! # The artifact of an output sink

`OutputSink` of `packages/coding-agent/src/session/streaming-output.ts` mirrors the raw
chunks to an artifact file of a bounded size.  Chunks wait in a queue until the text is
long enough for a file; the queue is then written to it, and later chunks directly.  Of a
chunk that does not fit, the whole characters that do are kept, and the bytes that are
left of the limit stay free: a later chunk finds room in them, and its text then stands
where other text was omitted.

Writing to the file is taken to succeed.
-/
namespace GajaeCode
open JsString List

/-- The artifact fields of the sink.  `file` is what was written to the open file sink;
the file is ready as soon as it is there. -/
structure Artifact where
  artifactMaxBytes : Nat
  artifactBytes : Nat
  artifactTruncatedBytes : Nat
  pendingFileWrites : Option (List JsString)
  pendingFileWriteBytes : Nat
  file : Option (List JsString)

def defaultArtifactMaxBytes : Int := 10 * 1024 * 1024

namespace Artifact

def create (artifactMaxBytes : Int) : Artifact where
  artifactMaxBytes := artifactMaxBytes.toNat
  artifactBytes := 0
  artifactTruncatedBytes := 0
  pendingFileWrites := none
  pendingFileWriteBytes := 0
  file := none

variable (f : Artifact)

def queuePendingFileWrite (chunk : JsString) (bytes : Nat) : Artifact :=
  { f with
    pendingFileWrites := some (f.pendingFileWrites.getD [] ++ [chunk])
    pendingFileWriteBytes := f.pendingFileWriteBytes + bytes }

def createFileSink : Artifact :=
  if f.file.isSome then f
  else
    { f with
      file := some (f.pendingFileWrites.getD [])
      pendingFileWrites := none
      pendingFileWriteBytes := 0 }

/-- What is kept of a chunk, if anything; the bytes that are not are counted. -/
def capArtifactChunk (chunk : JsString) (bytes : Nat) : Option (JsString × Nat) × Artifact :=
  if bytes = 0 then (none, f)
  else if f.artifactMaxBytes = 0 ∨ f.artifactMaxBytes ≤ f.artifactBytes then
    (none, { f with artifactTruncatedBytes := f.artifactTruncatedBytes + bytes })
  else
    let room := f.artifactMaxBytes - f.artifactBytes
    if bytes ≤ room then (some (chunk, bytes), f)
    else
      let kept := truncateHeadBytes chunk room
      (if 0 < kept.bytes then some (kept.text, kept.bytes) else none,
        { f with artifactTruncatedBytes := f.artifactTruncatedBytes + (bytes - kept.bytes) })

/-- `#enqueueFileWrite`, in a sink whose tail has `bufferBytes` bytes. -/
def enqueueFileWrite (bufferBytes spillThreshold : Nat) (chunk : JsString)
    (bytes : Nat) : Artifact :=
  match f.capArtifactChunk chunk bytes with
  | (none, f) => f
  | (some (text, size), f) =>
    let f := { f with artifactBytes := f.artifactBytes + size }
    match f.file with
    | none =>
      let f := f.queuePendingFileWrite text size
      if spillThreshold < bufferBytes + bytes ∨ spillThreshold < f.pendingFileWriteBytes then
        f.createFileSink
      else f
    | some written => { f with file := some (written ++ [text]) }

/-- The text in the file and behind it in the queue. -/
def text : JsString :=
  (f.file.getD []).flatten ++ (f.pendingFileWrites.getD []).flatten

/-! ## One chunk -/

/-- Once the file is open nothing waits in the queue. -/
def Tidy : Prop := f.file.isSome = true → f.pendingFileWrites = none

theorem createFileSink_text : f.createFileSink.text = f.text := by
  rw [createFileSink]
  split_ifs with hopen
  · rfl
  · rw [Option.not_isSome_iff_eq_none] at hopen
    simp [text, hopen]

theorem createFileSink_counts : f.createFileSink.artifactMaxBytes = f.artifactMaxBytes ∧
      f.createFileSink.artifactBytes = f.artifactBytes ∧
      f.createFileSink.artifactTruncatedBytes = f.artifactTruncatedBytes := by
  rw [createFileSink]
  split_ifs <;> exact ⟨rfl, rfl, rfl⟩

theorem Tidy.createFileSink {f : Artifact} (h : f.Tidy) : f.createFileSink.Tidy := by
  rw [Artifact.createFileSink]
  split_ifs
  · exact h
  · exact fun _ => rfl

/-- The characters of a chunk that fit. -/
def keeps (cs : List Char) : List Char :=
  fitHead (f.artifactMaxBytes - f.artifactBytes) cs

theorem keeps_prefix (cs : List Char) : f.keeps cs <+: cs := by
  rcases fitHead_cases (f.artifactMaxBytes - f.artifactBytes) cs with
    ⟨hall, -⟩ | ⟨c, rest, hsplit, -⟩
  · exact ⟨[], by rw [append_nil]; exact hall⟩
  · exact ⟨c :: rest, hsplit.symm⟩

theorem capArtifactChunk_ofChars (cs : List Char) : f.capArtifactChunk (ofChars cs) (byteSize cs) =
      (if f.keeps cs = [] then none else some (ofChars (f.keeps cs), byteSize (f.keeps cs)),
        { f with artifactTruncatedBytes :=
            f.artifactTruncatedBytes + (byteSize cs - byteSize (f.keeps cs)) }) := by
  rw [capArtifactChunk]
  by_cases hzero : byteSize cs = 0
  · obtain rfl := byteSize_eq_zero hzero
    rfl
  rw [if_neg hzero]
  by_cases hfull : f.artifactMaxBytes = 0 ∨ f.artifactMaxBytes ≤ f.artifactBytes
  · have hnone : f.keeps cs = [] := by
      have hroom : f.artifactMaxBytes - f.artifactBytes = 0 := by omega
      rw [keeps, hroom]
      exact byteSize_eq_zero (Nat.le_zero.mp (byteSize_fitHead_le 0 cs))
    rw [if_pos hfull, if_pos hnone, hnone]
    rfl
  rw [if_neg hfull]
  by_cases hfits : byteSize cs ≤ f.artifactMaxBytes - f.artifactBytes
  · have hall : f.keeps cs = cs := fitHead_of_le hfits
    have hne : cs ≠ [] := by
      rintro rfl
      exact hzero rfl
    simp only [if_pos hfits, hall, if_neg hne, Nat.sub_self, Nat.add_zero]
  · simp only [if_neg hfits, truncateHeadBytes_ofChars]
    change (if 0 < byteSize (f.keeps cs) then some (ofChars (f.keeps cs), byteSize (f.keeps cs))
      else none, _) = _
    by_cases hnone : f.keeps cs = []
    · have hzero : ¬ 0 < byteSize (f.keeps cs) := by
        rw [hnone]
        exact Nat.lt_irrefl 0
      rw [if_pos hnone, if_neg hzero]
      rfl
    · have hpos : 0 < byteSize (f.keeps cs) :=
        Nat.pos_of_ne_zero fun hsize => hnone (byteSize_eq_zero hsize)
      rw [if_neg hnone, if_pos hpos]
      rfl

/-- What a chunk does to the artifact. -/
structure Takes (f f' : Artifact) (cs : List Char) : Prop where
  text : f'.text = f.text ++ ofChars (f.keeps cs)
  artifactMaxBytes : f'.artifactMaxBytes = f.artifactMaxBytes
  artifactBytes : f'.artifactBytes = f.artifactBytes + byteSize (f.keeps cs)
  artifactTruncatedBytes : f'.artifactTruncatedBytes =
    f.artifactTruncatedBytes + (byteSize cs - byteSize (f.keeps cs))
  tidy : f'.Tidy

theorem Takes.createFileSink {f f' : Artifact} {cs : List Char} (h : f.Takes f' cs) :
    f.Takes f'.createFileSink cs := by
  obtain ⟨hmax, hbytes, htruncated⟩ := f'.createFileSink_counts
  exact ⟨f'.createFileSink_text.trans h.text, hmax.trans h.artifactMaxBytes,
    hbytes.trans h.artifactBytes, htruncated.trans h.artifactTruncatedBytes, h.tidy.createFileSink⟩

theorem enqueueFileWrite_takes {f : Artifact} (h : f.Tidy) (bufferBytes spillThreshold : Nat)
    (cs : List Char) :
    f.Takes (f.enqueueFileWrite bufferBytes spillThreshold (ofChars cs) (byteSize cs)) cs := by
  rw [enqueueFileWrite, capArtifactChunk_ofChars]
  by_cases hnone : f.keeps cs = []
  · simp only [hnone, if_true]
    refine ⟨?_, rfl, ?_, ?_, h⟩
    · rw [hnone, ofChars_nil, append_nil]
      rfl
    · rw [hnone]
      rfl
    · rw [hnone]
  · simp only [if_neg hnone]
    rcases hfile : f.file with _ | written
    · have hqueued : f.Takes (queuePendingFileWrite
          { f with
            artifactTruncatedBytes :=
              f.artifactTruncatedBytes + (byteSize cs - byteSize (f.keeps cs))
            artifactBytes := f.artifactBytes + byteSize (f.keeps cs) }
          (ofChars (f.keeps cs)) (byteSize (f.keeps cs))) cs := by
        refine ⟨?_, rfl, rfl, rfl, fun hopen => ?_⟩
        · simp [Artifact.text, queuePendingFileWrite, hfile]
        · rw [queuePendingFileWrite, hfile] at hopen
          exact absurd hopen (by decide)
      rw [hfile] at hqueued
      simp only
      split_ifs
      · exact hqueued.createFileSink
      · exact hqueued
    · have hpending := h (by rw [hfile]; rfl)
      refine ⟨?_, rfl, rfl, rfl, fun _ => hpending⟩
      simp [Artifact.text, hfile, hpending]

end Artifact

/-- A sink whose artifact path is set. -/
structure MirroredSink where
  sink : OutputSink
  artifact : Artifact

namespace MirroredSink
variable {m : MirroredSink} {ks ps : List Char}

variable (host : SinkHost)

def start (options : OutputSinkOptions) (artifactMaxBytes : Int := defaultArtifactMaxBytes) :
    MirroredSink :=
  ⟨OutputSink.create options, Artifact.create artifactMaxBytes⟩

/-- `#ingest`.  With a column cap a chunk of no bytes is not offered to the artifact, and
the file is opened as soon as the cap has dropped something. -/
def ingest (m : MirroredSink) (rawChunk : JsString) : MirroredSink :=
  let sink := m.sink.ingest host rawChunk
  let rawBytes := byteLength rawChunk
  let artifact := m.artifact.enqueueFileWrite m.sink.bufferBytes m.sink.spillThreshold rawChunk
    rawBytes
  if rawBytes = 0 then ⟨sink, if m.sink.maxColumns = 0 then artifact else m.artifact⟩
  else if 0 < sink.column.columnDroppedBytes then ⟨sink, artifact.createFileSink⟩
  else ⟨sink, artifact⟩

def flushCoalesced (m : MirroredSink) : MirroredSink :=
  if m.sink.coalesceBuf.length = 0 then m
  else ingest host { m with sink := { m.sink with coalesceBuf := [] } } m.sink.coalesceBuf

def push (m : MirroredSink) (chunk : JsString) : MirroredSink :=
  if m.sink.coalesceSanitize = false then m.ingest host chunk
  else
    let m := { m with sink := { m.sink with coalesceBuf := m.sink.coalesceBuf ++ chunk } }
    if coalesceFlushChars ≤ m.sink.coalesceBuf.length then m.flushCoalesced host else m

def run (m : MirroredSink) (chunks : List JsString) : MirroredSink := chunks.foldl (push host) m

/-- What `dump` does before it writes the truncation notice. -/
def settle (m : MirroredSink) : MirroredSink :=
  let m := m.flushCoalesced host
  if 0 < m.artifact.artifactTruncatedBytes then
    { m with artifact := m.artifact.createFileSink }
  else m

/-- The artifact mirrors the stream: its text is a prefix of it, within the limit, and
the bytes that are not in it are counted. -/
structure Mirrors (m : MirroredSink) (max : Nat) (stream : JsString) : Prop where
  text_prefix : m.artifact.text <+: stream
  text_le : byteLength m.artifact.text ≤ max
  accounted : m.artifact.artifactBytes + m.artifact.artifactTruncatedBytes = byteLength stream

/-- Some of the chunk fits the room that is left after other text has been omitted. -/
def Overtakes (m : MirroredSink) (rawChunk : JsString) : Prop :=
  0 < m.artifact.artifactTruncatedBytes ∧
    0 < (truncateHeadBytes rawChunk (m.artifact.artifactMaxBytes - m.artifact.artifactBytes)).bytes

/-- Pushing the chunk does not overtake. -/
def PushInOrder (m : MirroredSink) (chunk : JsString) : Prop :=
  if m.sink.coalesceSanitize = false then ¬ m.Overtakes chunk
  else if coalesceFlushChars ≤ (m.sink.coalesceBuf ++ chunk).length then
    ¬ m.Overtakes (m.sink.coalesceBuf ++ chunk)
  else True

/-- No batch of the run overtakes, the last one included. -/
def InOrder : List JsString → MirroredSink → Prop
  | [], m => ¬ m.Overtakes m.sink.coalesceBuf
  | chunk :: chunks, m => m.PushInOrder chunk ∧ InOrder chunks (m.push host chunk)

/-- What is kept is the front of what was processed, and the next character does not
fit. -/
def Ordered (max : Nat) (ks ps : List Char) : Prop :=
  ∃ rs, ps = ks ++ rs ∧ ∀ c rest, rs = c :: rest → max < byteSize ks + c.utf8Size

/-- What is kept differs from what was processed. -/
def Diverged (ks ps : List Char) : Prop :=
  ∃ front k ks' p ps', ks = front ++ k :: ks' ∧ ps = front ++ p :: ps' ∧ k ≠ p

/-- How a step leads from what was kept and processed to what is: a difference stays, and
order is kept exactly where the step is in order. -/
structure Follows (max : Nat) (inOrder : Prop) (ks ps ks' ps' : List Char) : Prop where
  diverged : Diverged ks ps → Diverged ks' ps'
  ordered : Ordered max ks ps → inOrder → Ordered max ks' ps'
  overtaken : Ordered max ks ps → ¬ inOrder → Diverged ks' ps'

theorem Follows.refl {max : Nat} : Follows max True ks ps ks ps :=
  ⟨id, fun h _ => h, fun _ h => absurd trivial h⟩

theorem Follows.trans {max : Nat} {a b : Prop} {ks' ps' ks'' ps'' : List Char}
    (h : Follows max a ks ps ks' ps') (h' : Follows max b ks' ps' ks'' ps'') :
    Follows max (a ∧ b) ks ps ks'' ps'' := by
  refine ⟨fun hd => h'.diverged (h.diverged hd),
    fun ho hab => h'.ordered (h.ordered ho hab.1) hab.2, fun ho hab => ?_⟩
  by_cases ha : a
  · exact h'.overtaken (h.ordered ho ha) fun hb => hab ⟨ha, hb⟩
  · exact h'.diverged (h.overtaken ho ha)

theorem Diverged.departs (h : Diverged ks ps) : ¬ ofChars ks <+: ofChars ps := by
  obtain ⟨front, k, ks', p, ps', rfl, rfl, hne⟩ := h
  rintro ⟨rest, hrest⟩
  simp only [ofChars_append, ofChars_cons, append_assoc, append_cancel_left_eq] at hrest
  have hchars := congrArg codePoints hrest
  rw [codePoints_units_append, codePoints_units_append] at hchars
  exact hne (List.cons.inj hchars).1

/-- **A batch** of which the characters that fit are kept. -/
theorem follows_fitHead {max : Nat} (hks : byteSize ks ≤ max) (cs : List Char) :
    Follows max (¬ (ks ≠ ps ∧ fitHead (max - byteSize ks) cs ≠ [])) ks ps
      (ks ++ fitHead (max - byteSize ks) cs) (ps ++ cs) := by
  refine ⟨?_, ?_, ?_⟩
  · rintro ⟨front, k, ks', p, ps', rfl, rfl, hne⟩
    exact ⟨front, k, _, p, _, by rw [append_assoc, cons_append],
      by rw [append_assoc, cons_append], hne⟩
  · rintro ⟨rs, rfl, hclosed⟩ horder
    cases rs with
    | nil =>
      rw [append_nil]
      rcases fitHead_cases (max - byteSize ks) cs with ⟨hall, -⟩ | ⟨c, rest, hsplit, hroom⟩
      · exact ⟨[], by rw [hall, append_nil], fun _ _ hnil => (nomatch hnil)⟩
      · refine ⟨c :: rest, by rw [append_assoc, ← hsplit], fun d ds hcons => ?_⟩
        obtain ⟨rfl, -⟩ := List.cons.inj hcons
        rw [byteSize_append]
        omega
    | cons r rs =>
      -- something was omitted, so nothing of the batch is kept
      have hnone : fitHead (max - byteSize ks) cs = [] := by
        by_contra hfit
        exact horder ⟨by simp, hfit⟩
      rw [hnone, append_nil]
      refine ⟨r :: rs ++ cs, by rw [append_assoc], fun d ds hcons => ?_⟩
      obtain ⟨rfl, -⟩ := List.cons.inj hcons
      exact hclosed r rs rfl
  · rintro ⟨rs, rfl, hclosed⟩ hover
    obtain ⟨hrs, hfit⟩ := not_not.mp hover
    obtain ⟨r, rs, rfl⟩ : ∃ r rs', rs = r :: rs' :=
      exists_cons_of_ne_nil fun hnil => hrs (by rw [hnil, append_nil])
    obtain ⟨v, fit, hv⟩ := exists_cons_of_ne_nil hfit
    have hsize := byteSize_fitHead_le (max - byteSize ks) cs
    have hnext := hclosed r rs rfl
    rw [hv, byteSize_cons] at hsize
    refine ⟨ks, v, fit, r, rs ++ cs, by rw [hv], by rw [append_assoc, cons_append], ?_⟩
    rintro rfl
    omega

/-! ## The books of a sink -/

/-- What was kept and processed, with the counters and the text of the artifact. -/
structure Books (m : MirroredSink) (max : Nat) (ks ps : List Char) : Prop where
  text : m.artifact.text = ofChars ks
  artifactMaxBytes : m.artifact.artifactMaxBytes = max
  artifactBytes : m.artifact.artifactBytes = byteSize ks
  total : m.artifact.artifactBytes + m.artifact.artifactTruncatedBytes = byteSize ps
  limit : byteSize ks ≤ max
  tidy : m.artifact.Tidy
  pending : WellFormed m.sink.coalesceBuf
  direct : m.sink.coalesceSanitize = false → m.sink.coalesceBuf = []

theorem books_start (options : OutputSinkOptions) (artifactMaxBytes : Int) :
    (start options artifactMaxBytes).Books artifactMaxBytes.toNat [] [] :=
  ⟨rfl, rfl, rfl, rfl, Nat.zero_le _, fun _ => rfl, trivial, fun _ => rfl⟩

theorem pushTail_pending (s : OutputSink) (chunk : JsString) (n : Nat) :
    (s.pushTail chunk n).coalesceBuf = s.coalesceBuf ∧
      (s.pushTail chunk n).coalesceSanitize = s.coalesceSanitize := by
  simp only [OutputSink.pushTail, OutputSink.trimTailTo]
  split_ifs <;> exact ⟨rfl, rfl⟩

theorem retain_pending (s : OutputSink) (chunk : JsString) (n : Nat) :
    (s.retain chunk n).coalesceBuf = s.coalesceBuf ∧
      (s.retain chunk n).coalesceSanitize = s.coalesceSanitize := by
  simp only [OutputSink.retain]
  split_ifs
  · exact ⟨rfl, rfl⟩
  · exact pushTail_pending _ _ _
  · exact pushTail_pending _ _ _
  · exact pushTail_pending _ _ _

theorem ingest_pending (s : OutputSink) (rawChunk : JsString) :
    (s.ingest host rawChunk).coalesceBuf = s.coalesceBuf ∧
      (s.ingest host rawChunk).coalesceSanitize = s.coalesceSanitize := by
  have hraw : (s.countRaw rawChunk).coalesceBuf = s.coalesceBuf ∧
      (s.countRaw rawChunk).coalesceSanitize = s.coalesceSanitize := by
    simp only [OutputSink.countRaw]
    split_ifs <;> exact ⟨rfl, rfl⟩
  have hseen : ∀ (s' : OutputSink) (text : JsString),
      (s'.countVisible text).coalesceBuf = s'.coalesceBuf ∧
        (s'.countVisible text).coalesceSanitize = s'.coalesceSanitize := by
    intro s' text
    simp only [OutputSink.countVisible]
    split_ifs <;> exact ⟨rfl, rfl⟩
  simp only [OutputSink.ingest]
  split_ifs
  · exact hraw
  · exact ⟨(hseen _ _).1.trans hraw.1, (hseen _ _).2.trans hraw.2⟩
  · exact ⟨(retain_pending _ _ _).1.trans ((hseen _ _).1.trans hraw.1),
      (retain_pending _ _ _).2.trans ((hseen _ _).2.trans hraw.2)⟩

theorem ingest_sink (m : MirroredSink) (rawChunk : JsString) :
    (ingest host m rawChunk).sink = m.sink.ingest host rawChunk := by
  simp only [ingest]
  split_ifs <;> rfl

theorem ingest_takes (h : m.artifact.Tidy) (cs : List Char) :
    m.artifact.Takes (ingest host m (ofChars cs)).artifact cs := by
  have htakes := Artifact.enqueueFileWrite_takes h m.sink.bufferBytes m.sink.spillThreshold cs
  simp only [ingest, OutputSink.byteLength_ofChars]
  split_ifs with hempty hcolumn
  · exact htakes
  · obtain rfl := byteSize_eq_zero hempty
    exact ⟨(append_nil _).symm, rfl, rfl, rfl, h⟩
  · exact htakes.createFileSink
  · exact htakes

section
variable {max : Nat} (h : m.Books max ks ps)
include h

/-- A batch overtakes where something was omitted and some of it is kept. -/
theorem Books.overtakes_iff (hordered : Ordered max ks ps) (cs : List Char) :
    m.Overtakes (ofChars cs) ↔ ks ≠ ps ∧ fitHead (max - byteSize ks) cs ≠ [] := by
  have homitted : 0 < m.artifact.artifactTruncatedBytes ↔ ks ≠ ps := by
    have htotal := h.total
    obtain ⟨rs, rfl, -⟩ := hordered
    rw [h.artifactBytes, byteSize_append] at htotal
    constructor
    · intro hpos heq
      have hsize := congrArg byteSize heq
      rw [byteSize_append] at hsize
      omega
    · intro hne
      refine Nat.pos_of_ne_zero fun hzero => hne ?_
      rw [byteSize_eq_zero (by omega : byteSize rs = 0), append_nil]
  rw [Overtakes, homitted, h.artifactMaxBytes, h.artifactBytes, truncateHeadBytes_ofChars]
  refine and_congr_right fun _ => ⟨fun hpos hnil => ?_, fun hne => ?_⟩
  · rw [hnil] at hpos
    exact absurd hpos (Nat.lt_irrefl 0)
  · exact Nat.pos_of_ne_zero fun hzero => hne (byteSize_eq_zero hzero)

/-- **A batch** on the books. -/
theorem Books.ingest (cs : List Char) :
    (ingest host m (ofChars cs)).Books max (ks ++ m.artifact.keeps cs) (ps ++ cs) ∧
      (ingest host m (ofChars cs)).sink.coalesceBuf = m.sink.coalesceBuf ∧
      Follows max (¬ m.Overtakes (ofChars cs)) ks ps (ks ++ m.artifact.keeps cs) (ps ++ cs) := by
  have htakes := ingest_takes host h.tidy cs
  obtain ⟨hbuf, hcoalesce⟩ := ingest_pending host m.sink (ofChars cs)
  rw [← ingest_sink] at hbuf hcoalesce
  have hkeeps : m.artifact.keeps cs = fitHead (max - byteSize ks) cs := by
    rw [Artifact.keeps, h.artifactMaxBytes, h.artifactBytes]
  have hsize : byteSize (m.artifact.keeps cs) ≤ max - byteSize ks :=
    hkeeps ▸ byteSize_fitHead_le _ _
  have hle : byteSize (m.artifact.keeps cs) ≤ byteSize cs := by
    obtain ⟨rest, hrest⟩ := m.artifact.keeps_prefix cs
    rw [← congrArg byteSize hrest, byteSize_append]
    exact Nat.le_add_right _ _
  have hlimit := h.limit
  refine ⟨⟨?_, ?_, ?_, ?_, ?_, htakes.tidy, ?_, ?_⟩, hbuf, ?_⟩
  · rw [htakes.text, h.text, ofChars_append]
  · rw [htakes.artifactMaxBytes, h.artifactMaxBytes]
  · rw [htakes.artifactBytes, h.artifactBytes, byteSize_append]
  · have htotal := h.total
    rw [htakes.artifactBytes, htakes.artifactTruncatedBytes, byteSize_append]
    omega
  · rw [byteSize_append]
    omega
  · rw [hbuf]
    exact h.pending
  · rw [hbuf, hcoalesce]
    exact h.direct
  · have hfollows : Follows max _ ks ps _ (ps ++ cs) := follows_fitHead h.limit cs
    rw [hkeeps]
    exact ⟨hfollows.diverged,
      fun ho hno => hfollows.ordered ho (mt (h.overtakes_iff ho cs).mpr hno),
      fun ho hover => hfollows.overtaken ho (mt (mt (h.overtakes_iff ho cs).mp) hover)⟩

theorem Books.setPending (text : JsString) (htext : WellFormed text)
    (hdirect : m.sink.coalesceSanitize = false → text = []) :
    MirroredSink.Books { m with sink := { m.sink with coalesceBuf := text } } max ks ps :=
  ⟨h.text, h.artifactMaxBytes, h.artifactBytes, h.total, h.limit, h.tidy, htext, hdirect⟩

/-- **A flush** puts the pending batch on the books. -/
theorem Books.flush : ∃ ks' ps', (m.flushCoalesced host).Books max ks' ps' ∧
      ofChars ps' = ofChars ps ++ m.sink.coalesceBuf ∧
      (m.flushCoalesced host).sink.coalesceBuf = [] ∧
      Follows max (¬ m.Overtakes m.sink.coalesceBuf) ks ps ks' ps' := by
  obtain ⟨cs, hcs⟩ := exists_ofChars h.pending
  rw [flushCoalesced]
  split_ifs with hempty
  · have hnil := length_eq_zero_iff.mp hempty
    refine ⟨ks, ps, h, by rw [hnil, append_nil], hnil, ?_⟩
    have hno : ¬ m.Overtakes [] := by
      rw [← ofChars_nil, Overtakes, truncateHeadBytes_ofChars]
      exact fun hover => absurd hover.2 (Nat.lt_irrefl 0)
    rw [hnil]
    exact ⟨id, fun ho _ => ho, fun _ hover => absurd hno hover⟩
  · obtain ⟨hbooks, hbuf, hfollows⟩ :=
      (h.setPending [] trivial fun _ => rfl).ingest host cs
    rw [hcs]
    exact ⟨_, _, hbooks, ofChars_append ps cs, hbuf, hfollows⟩

/-- **A push**. -/
theorem Books.push {chunk : JsString} (hchunk : WellFormed chunk) :
    ∃ ks' ps', (m.push host chunk).Books max ks' ps' ∧
      ofChars ps' ++ (m.push host chunk).sink.coalesceBuf =
        ofChars ps ++ m.sink.coalesceBuf ++ chunk ∧
      Follows max (m.PushInOrder chunk) ks ps ks' ps' := by
  simp only [MirroredSink.push, PushInOrder]
  split_ifs with hdirect hflush
  · obtain ⟨cs, rfl⟩ := exists_ofChars hchunk
    obtain ⟨hbooks, hbuf, hfollows⟩ := h.ingest host cs
    refine ⟨_, _, hbooks, ?_, hfollows⟩
    rw [hbuf, h.direct hdirect, append_nil, append_nil, ofChars_append]
  · obtain ⟨ks', ps', hbooks, hstream, hbuf, hfollows⟩ :=
      (h.setPending _ (wellFormed_append h.pending hchunk) fun hno => absurd hno hdirect).flush host
    refine ⟨ks', ps', hbooks, ?_, hfollows⟩
    rw [hbuf, append_nil, hstream, append_assoc]
  · refine ⟨ks, ps, h.setPending _ (wellFormed_append h.pending hchunk)
      fun hno => absurd hno hdirect, ?_, Follows.refl⟩
    rw [append_assoc]

/-- **A run** of pushes, and the flush at its end. -/
theorem Books.run {chunks : List JsString} (hchunks : ∀ chunk ∈ chunks, WellFormed chunk) :
    ∃ ks' ps', ((m.run host chunks).flushCoalesced host).Books max ks' ps' ∧
      ofChars ps' = ofChars ps ++ m.sink.coalesceBuf ++ chunks.flatten ∧
      Follows max (InOrder host chunks m) ks ps ks' ps' := by
  induction chunks generalizing m ks ps with
  | nil =>
    obtain ⟨ks', ps', hbooks, hstream, -, hfollows⟩ := h.flush host
    exact ⟨ks', ps', hbooks, by rw [hstream, flatten_nil, append_nil], hfollows⟩
  | cons chunk chunks ih =>
    rw [forall_mem_cons] at hchunks
    obtain ⟨ks', ps', hbooks, hstream, hfollows⟩ := h.push host hchunks.1
    obtain ⟨ks'', ps'', hbooks', hstream', hfollows'⟩ := ih hbooks hchunks.2
    refine ⟨ks'', ps'', hbooks', ?_, hfollows.trans hfollows'⟩
    rw [hstream', hstream, flatten_cons, append_assoc _ chunk]

end

/-- The notice's file is opened without a change to the text. -/
theorem mirrors_settle (m : MirroredSink) (max : Nat) (stream : JsString) :
    (m.settle host).Mirrors max stream ↔ (m.flushCoalesced host).Mirrors max stream := by
  simp only [settle]
  split_ifs
  · obtain ⟨-, hbytes, htruncated⟩ := (m.flushCoalesced host).artifact.createFileSink_counts
    have htext := (m.flushCoalesced host).artifact.createFileSink_text
    constructor
    · rintro ⟨hfront, hle, haccounted⟩
      exact ⟨htext ▸ hfront, htext ▸ hle, hbytes ▸ htruncated ▸ haccounted⟩
    · rintro ⟨hfront, hle, haccounted⟩
      refine ⟨htext.symm ▸ hfront, htext.symm ▸ hle, ?_⟩
      exact (congrArg₂ (· + ·) hbytes htruncated).trans haccounted
  · exact Iff.rfl

/-- **The artifact mirrors the stream exactly while no batch overtakes.**  For every
sanitizer, all options, every limit and every sequence of well-formed chunks. -/
theorem mirrors_iff_inOrder (options : OutputSinkOptions) (artifactMaxBytes : Int)
    {chunks : List JsString} (hchunks : ∀ chunk ∈ chunks, WellFormed chunk) :
    (((start options artifactMaxBytes).run host chunks).settle host).Mirrors
        artifactMaxBytes.toNat chunks.flatten ↔
      InOrder host chunks (start options artifactMaxBytes) := by
  obtain ⟨ks, ps, hbooks, hstream, hfollows⟩ :=
    (books_start options artifactMaxBytes).run host hchunks
  have hstart : Ordered artifactMaxBytes.toNat [] [] := ⟨[], rfl, fun _ _ hnil => (nomatch hnil)⟩
  have hall : chunks.flatten = ofChars ps := hstream.symm
  rw [mirrors_settle, hall]
  constructor
  · intro hmirrors
    by_contra hover
    exact (hfollows.overtaken hstart hover).departs (hbooks.text ▸ hmirrors.text_prefix)
  · intro horder
    obtain ⟨rs, hrs, -⟩ := hfollows.ordered hstart horder
    refine ⟨?_, ?_, ?_⟩
    · rw [hbooks.text, hrs, ofChars_append]
      exact prefix_append _ _
    · rw [hbooks.text, OutputSink.byteLength_ofChars]
      exact hbooks.limit
    · rw [hbooks.total, OutputSink.byteLength_ofChars]

/-- A limit of four bytes: `é` does not fit after `abc`, and nothing smaller follows. -/
theorem mirrors_iff_inOrder_wide :
    (((start {} 4).run TracedSink.plainHost [js "abc", js "é", js "éx"]).settle
      TracedSink.plainHost).Mirrors 4 (js "abcééx") := by
  have hchars : ∀ chunk ∈ [js "abc", js "é", js "éx"], chunk = ofChars (codePoints chunk) := by
    decide
  have hchunks : ∀ chunk ∈ [js "abc", js "é", js "éx"], WellFormed chunk := by
    intro chunk hchunk
    rw [hchars chunk hchunk]
    exact wellFormed_ofChars _
  refine (mirrors_iff_inOrder TracedSink.plainHost {} 4 hchunks).mpr ?_
  simp only [InOrder, PushInOrder, Overtakes]
  decide

/-- After `abc` and `é` the chunk `d` is written: the artifact is `abcd`. -/
theorem small_chunk_mirrored :
    (((start {} 4).run TracedSink.plainHost [js "abc", js "é", js "d"]).settle
        TracedSink.plainHost).artifact.text = js "abcd" ∧
      ¬ (((start {} 4).run TracedSink.plainHost [js "abc", js "é", js "d"]).settle
        TracedSink.plainHost).Mirrors 4 (js "abcéd") := by
  have htext : (((start {} 4).run TracedSink.plainHost [js "abc", js "é", js "d"]).settle
      TracedSink.plainHost).artifact.text = js "abcd" := by
    decide
  refine ⟨htext, fun hmirrors => ?_⟩
  have hprefix := hmirrors.text_prefix
  rw [htext] at hprefix
  exact absurd hprefix (by decide)

end MirroredSink
end GajaeCode
