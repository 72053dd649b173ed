import GajaeCode.OutputSinkWindows

/-! # The tail buffer

`TailBuffer` of `packages/coding-agent/src/session/streaming-output.ts`.  Text is
appended in pieces, and the buffer keeps an end part of it.  It trims late: only when it
holds more than twice the budget, or when it is read.  A piece that fills the budget by
itself replaces everything before it.  None of this shows: what the buffer holds is at
every moment an end part of the text that still has the longest end part within the
budget inside it, and a trim cuts it down to that part and no further.
-/
namespace GajaeCode
open JsString List

/-- `TailBuffer`: the pieces not joined yet, and the number of bytes in them. -/
structure TailBuffer where
  maxBytes : Nat
  pending : List JsString
  pos : Nat
  deriving DecidableEq

def maxPending : Nat := 10

namespace TailBuffer

def create (maxBytes : Nat) : TailBuffer := ⟨maxBytes, [], 0⟩

variable (b : TailBuffer)

def compact : TailBuffer := { b with pending := [b.pending.flatten] }

def flush : JsString × TailBuffer :=
  if b.pending.length = 0 then ([], b)
  else
    let b := if 1 < b.pending.length then b.compact else b
    (b.pending.head?.getD [], b)

def trimTo (max : Nat) : TailBuffer :=
  if max = 0 then { b with pending := [], pos := 0 }
  else if b.pos ≤ max then b
  else
    let (joined, b) := b.flush
    let kept := truncateTailBytes joined max
    { b with pending := [kept.text], pos := kept.bytes }

def append (text : JsString) : TailBuffer :=
  if text = [] then b
  else if b.maxBytes = 0 then { b with pending := [], pos := 0 }
  else
    let n := byteLength text
    if b.maxBytes ≤ n then
      -- the piece alone fills the budget
      let kept := truncateTailBytes text b.maxBytes
      { b with pending := [kept.text], pos := kept.bytes }
    else
      let b := { b with pending := b.pending ++ [text], pos := b.pos + n }
      let b := if maxPending < b.pending.length then b.compact else b
      if b.maxBytes * 2 < b.pos then b.trimTo b.maxBytes else b

/-- `text()`, and the buffer it leaves. -/
def text : JsString × TailBuffer := (b.trimTo b.maxBytes).flush

/-- `bytes()`, and the buffer it leaves. -/
def bytes : Nat × TailBuffer :=
  let b := b.trimTo b.maxBytes
  (b.pos, b)

inductive Call where
  | append (piece : JsString)
  | text
  | bytes
  deriving DecidableEq

def step : Call → TailBuffer
  | .append piece => b.append piece
  | .text => b.text.2
  | .bytes => b.bytes.2

def run (calls : List Call) : TailBuffer := calls.foldl step b

def Call.appended : Call → JsString
  | .append piece => piece
  | .text | .bytes => []

end TailBuffer

namespace JsString

/-- An end part of a text that starts between two of its characters. -/
def IsCharSuffix (t s : JsString) : Prop :=
  ∃ front rest, s = ofChars (front ++ rest) ∧ t = ofChars rest

/-- The longest end part of a text that has at most `n` bytes. -/
structure IsLongestTail (n : Nat) (s t : JsString) : Prop where
  suffix : IsCharSuffix t s
  fits : byteLength t ≤ n
  longest : ∀ t', IsCharSuffix t' s → byteLength t' ≤ n → t'.length ≤ t.length

/-- Every end part that fits is an end part of the longest. -/
theorem suffix_fitTail {n : Nat} {cs ks : List Char} (hks : ks <:+ cs) (hfits : byteSize ks ≤ n) :
    ks <:+ fitTail n cs := by
  induction cs with
  | nil => exact hks
  | cons c cs ih =>
    rw [fitTail]
    split_ifs with hall
    · exact hks
    · rcases suffix_cons_iff.mp hks with rfl | hrest
      · exact absurd hfits hall
      · exact ih hrest

/-- A text between another and its longest end part has the same longest end part. -/
theorem fitTail_eq_of_suffix {n : Nat} {cs ks : List Char} (hks : ks <:+ cs)
    (hkeeps : fitTail n cs <:+ ks) : fitTail n ks = fitTail n cs := by
  have hle : fitTail n ks <:+ fitTail n cs :=
    suffix_fitTail ((fitTail_suffix n ks).trans hks) (byteSize_fitTail_le n ks)
  have hge : fitTail n cs <:+ fitTail n ks := suffix_fitTail hkeeps (byteSize_fitTail_le n cs)
  exact hle.eq_of_length (Nat.le_antisymm hle.length_le hge.length_le)

/-- What more text needs of the text before it is within its longest end part. -/
theorem fitTail_append_suffix {n : Nat} {cs ks : List Char} (hkeeps : fitTail n cs <:+ ks)
    (ds : List Char) : fitTail n (cs ++ ds) <:+ ks ++ ds := by
  have hfits := byteSize_fitTail_le n (cs ++ ds)
  obtain ⟨before, hsplit⟩ := fitTail_suffix n (cs ++ ds)
  rcases append_eq_append_iff.mp hsplit with ⟨front, hcs, hfront⟩ | ⟨front, -, hds⟩
  · rw [hfront, byteSize_append] at hfits
    rw [hfront]
    have hks : front <:+ ks := (suffix_fitTail ⟨before, hcs.symm⟩ (by omega)).trans hkeeps
    obtain ⟨before', rfl⟩ := hks
    exact ⟨before', by rw [append_assoc]⟩
  · generalize fitTail n (cs ++ ds) = kept at hds
    exact ⟨ks ++ front, by rw [hds, append_assoc]⟩

theorem isLongestTail_fitTail (n : Nat) (cs : List Char) :
    IsLongestTail n (ofChars cs) (ofChars (fitTail n cs)) := by
  obtain ⟨front, hfront⟩ := fitTail_suffix n cs
  refine ⟨⟨front, fitTail n cs, by rw [hfront], rfl⟩, ?_, ?_⟩
  · rw [OutputSink.byteLength_ofChars]
    exact byteSize_fitTail_le n cs
  · rintro t' ⟨front', rest, hcs, rfl⟩ hfits
    rw [OutputSink.byteLength_ofChars] at hfits
    obtain rfl := ofChars_injective hcs
    obtain ⟨before, hbefore⟩ := suffix_fitTail (suffix_append front' rest) hfits
    rw [← hbefore, ofChars_append, length_append]
    exact Nat.le_add_left _ _

end JsString

namespace TailBuffer
variable {b : TailBuffer} {cs ks : List Char}

/-- Of the text `cs` the buffer holds an end part that has the longest end part within
the budget in it, and its count of bytes is right. -/
structure Holds (b : TailBuffer) (cs ks : List Char) : Prop where
  pending : b.pending.flatten = ofChars ks
  pos : b.pos = byteSize ks
  suffix : ks <:+ cs
  keeps : fitTail b.maxBytes cs <:+ ks

theorem flush_fst (b : TailBuffer) : b.flush.1 = b.pending.flatten := by
  rcases hp : b.pending with _ | ⟨piece, _ | ⟨next, rest⟩⟩ <;> simp [flush, compact, hp]

@[simp] theorem flush_pending (b : TailBuffer) : b.flush.2.pending.flatten = b.pending.flatten := by
  simp only [flush, compact]
  split_ifs <;> simp

@[simp] theorem flush_pos (b : TailBuffer) : b.flush.2.pos = b.pos := by
  simp only [flush, compact]
  split_ifs <;> rfl

@[simp] theorem flush_maxBytes (b : TailBuffer) : b.flush.2.maxBytes = b.maxBytes := by
  simp only [flush, compact]
  split_ifs <;> rfl

theorem holds_create (maxBytes : Nat) : (create maxBytes).Holds [] [] :=
  ⟨rfl, rfl, suffix_rfl, suffix_rfl⟩

section
variable (h : b.Holds cs ks)
include h

theorem Holds.flush : b.flush.2.Holds cs ks :=
  ⟨by rw [flush_pending, h.pending], by rw [flush_pos, h.pos], h.suffix,
    by rw [flush_maxBytes]; exact h.keeps⟩

/-- **A trim** leaves the longest end part within the budget. -/
theorem Holds.trimTo : (b.trimTo b.maxBytes).Holds cs (fitTail b.maxBytes cs) ∧
      (b.trimTo b.maxBytes).maxBytes = b.maxBytes := by
  have hfit := fitTail_eq_of_suffix h.suffix h.keeps
  simp only [TailBuffer.trimTo]
  split_ifs with hzero hsmall
  · have hnone : fitTail b.maxBytes cs = [] := by
      rw [hzero]
      exact byteSize_eq_zero (Nat.le_zero.mp (byteSize_fitTail_le 0 cs))
    rw [hnone]
    exact ⟨⟨rfl, rfl, nil_suffix, hnone ▸ suffix_rfl⟩, rfl⟩
  · have hall : fitTail b.maxBytes cs = ks := by
      rw [← hfit]
      exact fitTail_of_le (h.pos ▸ hsmall)
    rw [hall]
    exact ⟨h, rfl⟩
  · rw [flush_fst, h.pending, truncateTailBytes_ofChars, hfit]
    refine ⟨⟨append_nil _, rfl, fitTail_suffix _ _, ?_⟩, flush_maxBytes b⟩
    simp only [flush_maxBytes]
    exact suffix_rfl

/-- **An append** keeps what later reads need. -/
theorem Holds.append (ds : List Char) : (∃ ks', (b.append (ofChars ds)).Holds (cs ++ ds) ks') ∧
      (b.append (ofChars ds)).maxBytes = b.maxBytes := by
  simp only [TailBuffer.append]
  split_ifs with hempty hzero hlarge hmany hover hover
  · have hnil : ds = [] := ofChars_injective hempty
    rw [hnil, append_nil]
    exact ⟨⟨ks, h⟩, rfl⟩
  · have hnone : fitTail b.maxBytes (cs ++ ds) = [] := by
      rw [hzero]
      exact byteSize_eq_zero (Nat.le_zero.mp (byteSize_fitTail_le 0 _))
    exact ⟨⟨[], rfl, rfl, nil_suffix, hnone ▸ suffix_rfl⟩, rfl⟩
  · rw [OutputSink.byteLength_ofChars] at hlarge
    rw [truncateTailBytes_ofChars]
    refine ⟨⟨fitTail b.maxBytes ds, append_nil _, rfl, ?_, ?_⟩, rfl⟩
    · exact (fitTail_suffix _ ds).trans (suffix_append cs ds)
    · exact fitTail_append_of_le hlarge cs ▸ suffix_rfl
  all_goals
    have hjoined : (b.pending ++ [ofChars ds]).flatten = ofChars (ks ++ ds) := by
      rw [flatten_append, h.pending, ofChars_append]
      simp
    have hpos : b.pos + byteLength (ofChars ds) = byteSize (ks ++ ds) := by
      rw [OutputSink.byteLength_ofChars, h.pos, byteSize_append]
    have hsuffix : ks ++ ds <:+ cs ++ ds := by
      obtain ⟨before, rfl⟩ := h.suffix
      exact ⟨before, by rw [append_assoc]⟩
    have hkeeps := fitTail_append_suffix h.keeps ds
  · have hnext : (TailBuffer.compact { b with
          pending := b.pending ++ [ofChars ds]
          pos := b.pos + byteLength (ofChars ds) }).Holds (cs ++ ds) (ks ++ ds) :=
      ⟨by simpa only [compact, flatten_singleton] using hjoined, hpos, hsuffix, hkeeps⟩
    exact ⟨⟨_, hnext.trimTo.1⟩, hnext.trimTo.2⟩
  · exact ⟨⟨ks ++ ds, by simpa only [compact, flatten_singleton] using hjoined, hpos, hsuffix,
      hkeeps⟩, rfl⟩
  · have hnext : TailBuffer.Holds
        { b with pending := b.pending ++ [ofChars ds], pos := b.pos + byteLength (ofChars ds) }
        (cs ++ ds) (ks ++ ds) := ⟨hjoined, hpos, hsuffix, hkeeps⟩
    exact ⟨⟨_, hnext.trimTo.1⟩, hnext.trimTo.2⟩
  · exact ⟨⟨ks ++ ds, hjoined, hpos, hsuffix, hkeeps⟩, rfl⟩

theorem Holds.read :
    b.text.1 = ofChars (fitTail b.maxBytes cs) ∧ b.bytes.1 = byteSize (fitTail b.maxBytes cs) := by
  obtain ⟨htrim, -⟩ := h.trimTo
  exact ⟨by rw [text, flush_fst, htrim.pending], htrim.pos⟩

end

theorem Holds.step {b : TailBuffer} {cs ks : List Char} (h : b.Holds cs ks) {call : Call}
    {ds : List Char} (hcall : call.appended = ofChars ds) :
    (∃ ks', (b.step call).Holds (cs ++ ds) ks') ∧ (b.step call).maxBytes = b.maxBytes := by
  cases call with
  | append text =>
    obtain rfl : text = ofChars ds := hcall
    exact h.append ds
  | text =>
    obtain rfl : [] = ds := ofChars_injective hcall
    rw [append_nil]
    exact ⟨⟨_, h.trimTo.1.flush⟩, by rw [TailBuffer.step, text, flush_maxBytes, h.trimTo.2]⟩
  | bytes =>
    obtain rfl : [] = ds := ofChars_injective hcall
    rw [append_nil]
    exact ⟨⟨_, h.trimTo.1⟩, h.trimTo.2⟩

theorem Holds.run (h : b.Holds cs ks) {calls : List Call}
    (hcalls : ∀ call ∈ calls, WellFormed call.appended) :
    ∃ ds ks', (calls.map Call.appended).flatten = ofChars ds ∧
      (b.run calls).Holds (cs ++ ds) ks' ∧ (b.run calls).maxBytes = b.maxBytes := by
  induction calls generalizing b cs ks with
  | nil => exact ⟨[], ks, rfl, by rw [append_nil]; exact h, rfl⟩
  | cons call calls ih =>
    obtain ⟨ds, hds⟩ := exists_ofChars (hcalls call mem_cons_self)
    obtain ⟨⟨ks', hstep⟩, hmax⟩ := h.step hds
    obtain ⟨es, ks'', hes, hrun, hmax'⟩ :=
      ih hstep (fun c hc => hcalls c (mem_cons_of_mem _ hc))
    refine ⟨ds ++ es, ks'', ?_, ?_, ?_⟩
    · rw [map_cons, flatten_cons, hds, hes, ofChars_append]
    · rw [← append_assoc]
      exact hrun
    · exact hmax'.trans hmax

/-- **The buffer does not depend on how its text was cut.**  For every budget and every
sequence of calls that append well-formed text, with reads anywhere between: a read
returns the longest end part of all the text that starts at a character and has at most
that many bytes, and its size. -/
theorem run_isLongestTail (maxBytes : Nat) {calls : List Call}
    (hcalls : ∀ call ∈ calls, WellFormed call.appended) :
    IsLongestTail maxBytes (calls.map Call.appended).flatten ((create maxBytes).run calls).text.1 ∧
      ((create maxBytes).run calls).bytes.1 = byteLength ((create maxBytes).run calls).text.1 := by
  obtain ⟨ds, ks, hds, hholds, hmax⟩ := (holds_create maxBytes).run hcalls
  obtain ⟨htext, hbytes⟩ := hholds.read
  rw [hmax] at htext hbytes
  rw [nil_append] at htext hbytes
  rw [htext, hbytes, hds, OutputSink.byteLength_ofChars]
  exact ⟨isLongestTail_fitTail maxBytes ds, rfl⟩

/-- Five bytes of `aé€b`, read on the way: `€b`, for `é€b` has six. -/
theorem run_isLongestTail_wide :
    IsLongestTail 5 (js "aé€b") ((create 5).run [.append (js "aé"), .bytes, .append (js "€"),
      .text, .append (js "b")]).text.1 ∧
    ((create 5).run [.append (js "aé"), .bytes, .append (js "€"), .text,
      .append (js "b")]).bytes.1 = 4 := by
  have hchars : ∀ call ∈ [Call.append (js "aé"), .bytes, .append (js "€"), .text,
      .append (js "b")], call.appended = ofChars (codePoints call.appended) := by
    decide
  have h := run_isLongestTail 5 (fun call hcall => by
    rw [hchars call hcall]
    exact wellFormed_ofChars _)
  have hall : ([Call.append (js "aé"), .bytes, .append (js "€"), .text,
      .append (js "b")].map Call.appended).flatten = js "aé€b" := by
    decide
  rw [hall] at h
  exact ⟨h.1, by decide⟩

end TailBuffer
end GajaeCode
