import GajaeCode.SecretInvariant

/-! # Secrets in outbound text

A placeholder has fences at its ends, and between them too little room for a secret.  So a
secret in an obfuscated text stands where nothing was replaced, and it would have been in the
text before: once a secret has had its turn, no later replacement brings it back.

Messages whose content is a string are not looked at (`leaves_none_iff`).
-/
namespace GajaeCode
open JsString Marking List

namespace SecretObfuscator
variable {entries : List SecretEntry} {text : JsString}

/-- A secret that does not fit into a placeholder. -/
def Long (secret : JsString) : Prop := 8 ≤ secret.length ∧ 0x23 ∉ secret

theorem Long.ne_nil {secret : JsString} (h : Long secret) : secret ≠ [] :=
  ne_nil_of_length_pos (Nat.lt_of_lt_of_le (by decide) h.1)

theorem Long.width_lt {secret : JsString} (h : Long secret) :
    placeholderStyle.width < secret.length := Nat.lt_of_lt_of_le (by decide) h.1

variable {secret : JsString}

theorem absent_replaceWord (hlong : Long secret) {word mark : JsString} (hne : word ≠ [])
    (hmark : placeholderStyle.IsMark mark) (h : ¬ secret <:+: text) :
    ¬ secret <:+: replaceWord word mark text := fun hoccurs => by
  have hfinds := finds_word hne
  have hunits := MarkStyle.units_of_infix_replace hfinds (fun _ _ _ => hmark) hlong.2
    hlong.width_lt hoccurs
  have hplain := MarkStyle.infix_plain hunits
  rw [plain_pieces hfinds] at hplain
  exact h hplain

theorem absent_replace (hlong : Long secret) {words : List JsString} (hne : [] ∉ words)
    {mark : JsString → JsString} (hmark : ∀ word ∈ words, placeholderStyle.IsMark (mark word))
    (hmem : secret ∈ words) (text : JsString) :
    ¬ secret <:+: replace (firstOf words) mark text := fun hoccurs =>
  no_units_left hne hmem text <| MarkStyle.units_of_infix_replace (finds_firstOf hne)
    (fun _ word hfound => hmark word (mem_of_firstOf hfound)) hlong.2 hlong.width_lt hoccurs

theorem absent_replaceWords (hlong : Long secret) {words : List (JsString × JsString)}
    (hwords : ∀ w ∈ words, w.1 ≠ [] ∧ placeholderStyle.IsMark w.2)
    (h : ¬ secret <:+: text ∨ secret ∈ words.map Prod.fst) :
    ¬ secret <:+: replaceWords words text := by
  induction words generalizing text with
  | nil =>
    rcases h with habsent | hmem
    · exact habsent
    · exact absurd hmem not_mem_nil
  | cons w words ih =>
    obtain ⟨hne, hmark⟩ := hwords w mem_cons_self
    refine ih (fun w' hw' => hwords w' (mem_cons_of_mem _ hw')) ?_
    rcases h with habsent | hmem
    · exact .inl (absent_replaceWord hlong hne hmark habsent)
    · rcases mem_cons.mp hmem with heq | hmem
      · subst heq
        refine .inl (absent_replace hlong (fun hnil => hne (mem_singleton.mp hnil).symm)
          (fun _ _ => hmark) mem_cons_self text)
      · exact .inr hmem

variable {runtime : SecretRuntime} {o : SecretObfuscator}

theorem isMark_of_isPlaceholderOf {word : JsString × JsString}
    (h : IsPlaceholderOf runtime o word) : placeholderStyle.IsMark word.2 := by
  obtain ⟨index, -, hplaceholder⟩ := h
  exact hplaceholder ▸ isMark_buildPlaceholder runtime index

theorem Valid.absent_obfuscatePlainMappings (h : Valid runtime o) (hlong : Long secret)
    (hknown : o.Known secret) (text : JsString) :
    ¬ secret <:+: (o.obfuscatePlainMappings text).2 := by
  have hmem := h.mem_plainWords.mpr hknown
  rw [h.obfuscatePlainMappings_eq]
  dsimp only
  split_ifs
  · refine absent_replaceWords hlong (fun w hw => ⟨h.plainWords_ne_nil w hw, ?_⟩) (.inr hmem)
    exact isMark_of_isPlaceholderOf (h.isPlaceholderOf_plainWords hw)
  · refine absent_replace hlong (fun hnil => ?_) (fun word hword => ?_) hmem text
    · obtain ⟨w, hw, hwnil⟩ := mem_map.mp hnil
      exact h.plainWords_ne_nil w hw hwnil
    · exact isMark_of_isPlaceholderOf (h.isPlaceholderOf_combinedMark hword)

theorem Valid.absent_foldl_processEntry (h : Valid runtime o) (hany : o.hasAny = true)
    (hlong : Long secret) {entries : List RegexEntry}
    (hmode : ∀ entry ∈ entries, entry.mode = .obfuscate) (habsent : ¬ secret <:+: text) :
    ¬ secret <:+: (entries.foldl (processEntry runtime) (o, text)).2 := by
  induction entries generalizing o text with
  | nil => exact habsent
  | cons entry entries ih =>
    have hmatches : ∀ m ∈ matchesOf entry text, m ≠ [] := fun m hm => ne_nil_of_mem_matchesOf hm
    rw [foldl_cons, processEntry_eq (hmode entry mem_cons_self)]
    refine ih (h.discoverAll hmatches hany) ((hasAny_discoverAll _).trans hany)
      (fun e he => hmode e (mem_cons_of_mem _ he)) ?_
    refine absent_replaceWords hlong (fun w hw => ?_) (.inl habsent)
    obtain ⟨hplaceholder, hword⟩ := h.isPlaceholderOf_discoverAll hmatches hany hw
    exact ⟨hmatches _ hword, isMark_of_isPlaceholderOf hplaceholder⟩

/-- **An obfuscated text has no secret that was known before it.** -/
theorem Valid.absent_obfuscate (h : Valid runtime o) (hlong : Long secret)
    (hknown : o.Known secret) (text : JsString) : ¬ secret <:+: (o.obfuscate runtime text).2 := by
  by_cases hany : o.hasAny = true
  · rw [h.obfuscate_eq hany]
    exact h.combine.absent_foldl_processEntry hany hlong h.obfuscates
      (h.absent_obfuscatePlainMappings hlong hknown text)
  · have hnone := (h.idle (Bool.not_eq_true _ ▸ hany)).2
    have hmem := h.mem_plainWords.mpr hknown
    rw [plainWords, hnone] at hmem
    exact absurd hmem not_mem_nil

/-! ## Messages -/

variable {B M : Type}

def textOf? : ContentBlock B → Option JsString
  | .text text _ => some text
  | .other _ => none

/-- The content of a message, if it is a string, and its text blocks. -/
def textsOf : MessageContent B → List JsString
  | .string text => [text]
  | .blocks blocks => blocks.filterMap textOf?

/-- No secret is in the content or in a text block of one of the messages. -/
def Withholds (secrets : List JsString) (messages : List (Message B M)) : Prop :=
  ∀ msg ∈ messages, ∀ text ∈ textsOf msg.content, ∀ secret ∈ secrets, ¬ secret <:+: text

structure Guards (runtime : SecretRuntime) (o : SecretObfuscator) (secrets : List JsString) :
    Prop where
  valid : Valid runtime o
  long : ∀ secret ∈ secrets, Long secret
  known : ∀ secret ∈ secrets, o.Known secret

variable {secrets : List JsString}

section
variable (h : Guards runtime o secrets)
include h

theorem Guards.obfuscate (text : JsString) :
    Guards runtime (o.obfuscate runtime text).1 secrets := by
  obtain ⟨hvalid, hkept⟩ := h.valid.obfuscate text
  refine ⟨hvalid, h.long, fun secret hsecret => ?_⟩
  obtain ⟨index, hindex⟩ := h.known secret hsecret
  exact ⟨index, hkept secret index hindex⟩

/-- The text blocks of a message come out without secrets. -/
theorem Guards.obfuscateBlocks (blocks : List (ContentBlock B)) :
    Guards runtime (obfuscateBlocks runtime o blocks).1 secrets ∧
      ∀ text ∈ (obfuscateBlocks runtime o blocks).2.filterMap textOf?, ∀ secret ∈ secrets,
        ¬ secret <:+: text := by
  induction blocks generalizing o with
  | nil => exact ⟨h, fun text htext => absurd htext not_mem_nil⟩
  | cons block blocks ih =>
    cases block with
    | other block => exact ih h
    | text text signature =>
      obtain ⟨hguards, hrest⟩ := ih (h.obfuscate text)
      refine ⟨hguards, fun text' htext' secret hsecret => ?_⟩
      rcases mem_cons.mp htext' with rfl | htext'
      · exact h.valid.absent_obfuscate (h.long secret hsecret) (h.known secret hsecret) text
      · exact hrest text' htext' secret hsecret

theorem Guards.obfuscateMessage (msg : Message B M) :
    Guards runtime (obfuscateMessage runtime o msg).1 secrets ∧
      ((∀ text ∈ textsOf (obfuscateMessage runtime o msg).2.content, ∀ secret ∈ secrets,
          ¬ secret <:+: text) ↔
        ∀ text, msg.content = .string text → ∀ secret ∈ secrets, ¬ secret <:+: text) := by
  unfold SecretObfuscator.obfuscateMessage
  cases hcontent : msg.content with
  | string text =>
    refine ⟨h, ?_⟩
    dsimp only
    rw [hcontent, textsOf]
    simp only [mem_singleton, forall_eq, MessageContent.string.injEq, forall_eq']
  | blocks blocks =>
    obtain ⟨hguards, hblocks⟩ := h.obfuscateBlocks blocks
    exact ⟨hguards, Iff.intro (fun _ text heq => absurd heq (by simp)) fun _ => hblocks⟩

theorem Guards.obfuscateMessages (messages : List (Message B M)) :
    Withholds secrets (obfuscateMessages runtime o messages).2 ↔
      ∀ msg ∈ messages, ∀ text, msg.content = .string text → ∀ secret ∈ secrets,
        ¬ secret <:+: text := by
  induction messages generalizing o with
  | nil => exact ⟨fun _ msg hmem => absurd hmem not_mem_nil,
      fun _ msg hmem => absurd hmem not_mem_nil⟩
  | cons msg messages ih =>
    obtain ⟨hguards, hmsg⟩ := h.obfuscateMessage msg
    rw [forall_mem_cons, ← hmsg, ← ih hguards]
    exact forall_mem_cons

theorem Guards.after (texts : List JsString) : Guards runtime (after runtime o texts) secrets := by
  obtain ⟨hvalid, hknown⟩ := h.valid.after texts
  exact ⟨hvalid, h.long, fun secret hsecret => hknown secret (h.known secret hsecret)⟩

end

/-- The entries are in obfuscate mode and the plain secrets too long for a placeholder. -/
def LongEntries (entries : List SecretEntry) : Prop :=
  ∀ entry ∈ entries, entry.modeOf = .obfuscate ∧ (entry.type = .plain → Long entry.content)

theorem LongEntries.obfuscating (h : LongEntries entries) : Obfuscating entries := fun entry hmem =>
  ⟨(h entry hmem).1, fun htype => ((h entry hmem).2 htype).ne_nil⟩

theorem LongEntries.guards (h : LongEntries entries) :
    Guards runtime (new runtime entries) (plainSecrets entries) := by
  refine ⟨valid_new h.obfuscating, fun secret hsecret => ?_, fun secret hsecret =>
    known_new h.obfuscating hsecret⟩
  obtain ⟨entry, hmem, rfl⟩ := mem_map.mp hsecret
  obtain ⟨hmem, htype⟩ := mem_filter.mp hmem
  exact (h entry hmem).2 (of_decide_eq_true htype)

/-- **No secret leaves** in the messages returned, after any texts before, exactly if no
message whose content is a string had one in it. -/
theorem withholds_iff {entries : List SecretEntry} (hentries : LongEntries entries)
    (texts : List JsString) (messages : List (Message B M)) : Withholds (plainSecrets entries)
        (obfuscateMessages runtime (after runtime (new runtime entries) texts) messages).2 ↔
      ∀ msg ∈ messages, ∀ text, msg.content = .string text →
        ∀ secret ∈ plainSecrets entries, ¬ secret <:+: text :=
  (hentries.guards.after texts).obfuscateMessages messages

/-- A runtime whose hash functions are constant and that compiles no expression. -/
def constantRuntime : SecretRuntime where
  xxHash32 _ _ := 0
  hash _ := 0
  compileSecretRegex _ _ := none

def oneSecret : List SecretEntry := [⟨.plain, js "sk-12345", none, none, none⟩]

theorem longEntries_oneSecret : LongEntries oneSecret := by
  intro entry hentry
  rw [mem_singleton.mp hentry]
  exact ⟨rfl, fun _ => ⟨by decide, by decide⟩⟩

/-- A message with a text block: the secret is not in what is returned. -/
theorem withholds_iff_block : Withholds (plainSecrets oneSecret) (obfuscateMessages constantRuntime
      (after constantRuntime (new constantRuntime oneSecret) [js "use sk-12345"])
      [(⟨.blocks [.text (js "use sk-12345") none, .other ()], ()⟩ : Message Unit Unit)]).2 := by
  refine (withholds_iff longEntries_oneSecret _ _).mpr fun msg hmsg text htext => ?_
  rw [mem_singleton.mp hmsg] at htext
  exact absurd htext (by simp)

/-- A message with the same text as a string: the secret leaves. -/
theorem string_content_leaks :
    ¬ Withholds (plainSecrets oneSecret) (obfuscateMessages constantRuntime
      (after constantRuntime (new constantRuntime oneSecret) [])
      [(⟨.string (js "use sk-12345"), ()⟩ : Message Unit Unit)]).2 := by
  intro h
  exact h _ mem_cons_self _ mem_cons_self (js "sk-12345") (by decide) (by decide)

end SecretObfuscator
end GajaeCode
