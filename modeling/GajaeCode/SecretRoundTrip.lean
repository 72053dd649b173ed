import GajaeCode.SecretLeaks

/-! # Reading obfuscated text back

The obfuscation of a text is followed on pieces: which parts of the text stand for themselves
and which are shown as a placeholder.  It shows what the code returns as long as no secret is
looked for across a placeholder written before (`Separable.clear`).  The text comes back if
also no `#XXXX` of the text stands directly before a placeholder and each placeholder is mapped
back to the secret it was written for.

Where all secrets, found ones included, are too long for a placeholder and none is contained
in another, this is exact (`roundTrips_iff`).
-/
namespace GajaeCode
open JsString Marking List

namespace SecretObfuscator
variable {ps : List (Piece CodeUnit)} {text : JsString}

/-- The first pass on the pieces of a text. -/
def markPlain (o : SecretObfuscator) (text : JsString) : List (Piece CodeUnit) :=
  if needsSequence o.plainReplacements then hideAll o.plainWords (text.map .unit)
  else pieces (firstOf (o.plainWords.map Prod.fst)) o.combinedMark text

/-- The regular expressions on pieces: each looks at what is shown. -/
def markEntries (runtime : SecretRuntime) :
    List RegexEntry → SecretObfuscator → List (Piece CodeUnit) → List (Piece CodeUnit)
  | [], _, ps => ps
  | entry :: entries, o, ps =>
    let found := discoverAll runtime (matchesOf entry (shown ps)) o
    markEntries runtime entries found.1 (hideAll found.2 ps)

/-- No match touches a placeholder when its turn comes. -/
def ClearEntries (runtime : SecretRuntime) :
    List RegexEntry → SecretObfuscator → List (Piece CodeUnit) → Prop
  | [], _, _ => True
  | entry :: entries, o, ps =>
    let found := discoverAll runtime (matchesOf entry (shown ps)) o
    ClearAll found.2 ps ∧ ClearEntries runtime entries found.1 (hideAll found.2 ps)

/-- The pieces of an obfuscated text. -/
def mark (runtime : SecretRuntime) (o : SecretObfuscator) (text : JsString) :
    List (Piece CodeUnit) := markEntries runtime o.regexEntries o.combine (o.markPlain text)

variable {runtime : SecretRuntime} {o : SecretObfuscator}

theorem Valid.shown_markPlain (h : Valid runtime o)
    (hclear : needsSequence o.plainReplacements → ClearAll o.plainWords (text.map .unit)) :
    shown (o.markPlain text) = (o.obfuscatePlainMappings text).2 := by
  rw [h.obfuscatePlainMappings_eq]
  unfold markPlain
  by_cases hsequence : needsSequence o.plainReplacements
  · rw [if_pos hsequence, if_pos hsequence,
      ← replaceWord_foldl h.plainWords_ne_nil (hclear hsequence), shown_units]
    rfl
  · rw [if_neg hsequence, if_neg hsequence]
    rfl

theorem Valid.firstOf_finds (h : Valid runtime o) :
    Finds (firstOf (o.plainWords.map Prod.fst)) := finds_firstOf fun hnil => by
  obtain ⟨w, hw, hwnil⟩ := mem_map.mp hnil
  exact h.plainWords_ne_nil w hw hwnil

theorem Valid.plain_markPlain (h : Valid runtime o) (text : JsString) :
    plain (o.markPlain text) = text := by
  unfold markPlain
  split_ifs
  · rw [plain_hideAll h.plainWords_ne_nil, plain_units]
  · exact plain_pieces h.firstOf_finds text

/-- Every piece that is shown as a placeholder is a secret, shown as its own. -/
def Placeholders (runtime : SecretRuntime) (o : SecretObfuscator) (ps : List (Piece CodeUnit)) :
    Prop := ∀ w m, .marked w m ∈ ps → IsPlaceholderOf runtime o (w, m)

section
variable (h : Valid runtime o)
include h

theorem Valid.placeholders_markPlain (text : JsString) :
    Placeholders runtime o (o.markPlain text) := by
  unfold markPlain
  intro w m hmem
  split_ifs at hmem
  · rcases marked_of_mem_hideAll h.plainWords_ne_nil hmem with hword | hunit
    · exact h.isPlaceholderOf_plainWords hword
    · obtain ⟨u, -, heq⟩ := mem_map.mp hunit
      exact absurd heq (by simp)
  · obtain ⟨rfl, rest, hfound⟩ := marked_of_mem_pieces h.firstOf_finds text hmem
    exact h.isPlaceholderOf_combinedMark (mem_of_firstOf hfound)

theorem Valid.ne_nil_of_discoverAll (hany : o.hasAny = true) (entry : RegexEntry) (text : JsString)
    : ∀ w ∈ (SecretObfuscator.discoverAll runtime (matchesOf entry text) o).2, w.1 ≠ [] := by
  intro w hw
  have hmatches : ∀ m ∈ matchesOf entry text, m ≠ [] := fun m hm => ne_nil_of_mem_matchesOf hm
  exact hmatches _ (h.isPlaceholderOf_discoverAll hmatches hany hw).2

theorem Valid.placeholders_hideAll (hany : o.hasAny = true) (entry : RegexEntry) (text : JsString)
    (hplaceholders : Placeholders runtime o ps) :
    Placeholders runtime (SecretObfuscator.discoverAll runtime (matchesOf entry text) o).1
      (hideAll (SecretObfuscator.discoverAll runtime (matchesOf entry text) o).2 ps) := by
  intro w m hmem
  have hmatches : ∀ m ∈ matchesOf entry text, m ≠ [] := fun m hm => ne_nil_of_mem_matchesOf hm
  rcases marked_of_mem_hideAll (h.ne_nil_of_discoverAll hany entry text) hmem with hword | hps
  · exact (h.isPlaceholderOf_discoverAll hmatches hany hword).1
  · obtain ⟨index, hindex, hm⟩ := hplaceholders w m hps
    exact ⟨index, index_discoverAll _ hindex, hm⟩

/-- The regular expressions do on pieces what the code does on the text. -/
theorem Valid.markEntries_spec (hany : o.hasAny = true) {entries : List RegexEntry}
    (hmode : ∀ entry ∈ entries, entry.mode = .obfuscate) (hplaceholders : Placeholders runtime o ps)
    (hclear : ClearEntries runtime entries o ps) :
    (entries.foldl (processEntry runtime) (o, shown ps)).2 =
        shown (markEntries runtime entries o ps) ∧
      Placeholders runtime (entries.foldl (processEntry runtime) (o, shown ps)).1
        (markEntries runtime entries o ps) ∧
      plain (markEntries runtime entries o ps) = plain ps := by
  induction entries generalizing o ps with
  | nil => exact ⟨rfl, hplaceholders, rfl⟩
  | cons entry entries ih =>
    have hmatches : ∀ m ∈ matchesOf entry (shown ps), m ≠ [] :=
      fun m hm => ne_nil_of_mem_matchesOf hm
    have hne := h.ne_nil_of_discoverAll hany entry (shown ps)
    have hshown : replaceWords (SecretObfuscator.discoverAll runtime
        (matchesOf entry (shown ps)) o).2 (shown ps) = shown (hideAll _ ps) :=
      replaceWord_foldl hne hclear.1
    obtain ⟨htext, hmarked, hplain⟩ := ih (h.discoverAll hmatches hany)
      ((hasAny_discoverAll _).trans hany) (fun e he => hmode e (mem_cons_of_mem _ he))
      (h.placeholders_hideAll hany entry (shown ps) hplaceholders) hclear.2
    rw [foldl_cons, processEntry_eq (hmode entry mem_cons_self)]
    dsimp only
    rw [hshown]
    exact ⟨htext, hmarked, hplain.trans (plain_hideAll hne ps)⟩

end

/-- **The text can be read back.** -/
structure Separable (runtime : SecretRuntime) (o : SecretObfuscator) (text : JsString) :
    Prop where
  /-- No secret is looked for across a placeholder that the first pass has written. -/
  clearPlain : needsSequence o.plainReplacements → ClearAll o.plainWords (text.map .unit)
  /-- No match of a regular expression is looked for across a placeholder. -/
  clear : ClearEntries runtime o.regexEntries o.combine (o.markPlain text)
  /-- No `#XXXX` of the text stands directly before a placeholder. -/
  detached : placeholderStyle.Detached (o.mark runtime text)
  /-- A placeholder is mapped back to the secret it was written for. -/
  decoded : ∀ w m, .marked w m ∈ o.mark runtime text →
    (o.obfuscate runtime text).1.deobfuscateMap.get m = some w

/-- `deobfuscate(obfuscate(text)) === text` -/
def RoundTrips (runtime : SecretRuntime) (o : SecretObfuscator) (text : JsString) : Prop :=
  (o.obfuscate runtime text).1.deobfuscate (o.obfuscate runtime text).2 = text

theorem deobfuscate_eq (hany : o.hasAny = true) (text : JsString) : o.deobfuscate text =
      replace placeholderStyle.find (fun m => (o.deobfuscateMap.get m).getD m) text := by
  unfold deobfuscate
  by_cases hfence : (0x23 : CodeUnit) ∈ text
  · rw [if_neg (by simp [hany, hfence])]
  · rw [if_pos (.inr hfence), replace_of_not_found MarkStyle.finds.nil]
    intro rest hrest _
    cases hfound : placeholderStyle.find rest with
    | none => rfl
    | some m =>
      obtain ⟨⟨tag, -, rfl⟩, hpre⟩ := MarkStyle.find_eq_some.mp hfound
      exact absurd (hrest.subset (hpre.subset mem_cons_self)) hfence

theorem Placeholders.marks (h : Placeholders runtime o ps) :
    placeholderStyle.Marks ps := fun w m hmem => isMark_of_isPlaceholderOf (h w m hmem)

theorem Valid.obfuscate_mark (h : Valid runtime o) (hany : o.hasAny = true)
    (hplain : needsSequence o.plainReplacements → ClearAll o.plainWords (text.map .unit))
    (hclear : ClearEntries runtime o.regexEntries o.combine (o.markPlain text)) :
    (o.obfuscate runtime text).2 = shown (o.mark runtime text) ∧
      Placeholders runtime (o.obfuscate runtime text).1 (o.mark runtime text) ∧
      plain (o.mark runtime text) = text := by
  rw [h.obfuscate_eq hany, ← h.shown_markPlain hplain]
  obtain ⟨htext, hmarked, hmark⟩ := h.combine.markEntries_spec hany h.obfuscates
    (h.placeholders_markPlain text) hclear
  exact ⟨htext, hmarked, hmark.trans (h.plain_markPlain text)⟩

theorem RoundTrips.of_idle (hany : o.hasAny ≠ true) (text : JsString) :
    RoundTrips runtime o text := by
  unfold RoundTrips deobfuscate SecretObfuscator.obfuscate
  simp [hany]

theorem Valid.roundTrips_iff_replace (h : Valid runtime o) (hany : o.hasAny = true)
    (text : JsString) : RoundTrips runtime o text ↔ replace placeholderStyle.find
        (fun m => ((o.obfuscate runtime text).1.deobfuscateMap.get m).getD m)
        (o.obfuscate runtime text).2 = text := by
  have hany' : (o.obfuscate runtime text).1.hasAny = true := by
    rw [h.obfuscate_eq hany]
    exact (Valid.hasAny_foldl_processEntry h.obfuscates _ _).trans hany
  unfold RoundTrips
  rw [deobfuscate_eq hany']

/-- **A separable text comes back.** -/
theorem Valid.roundTrips (h : Valid runtime o) (htext : placeholderStyle.Unmarked text)
    (hseparable : Separable runtime o text) : RoundTrips runtime o text := by
  by_cases hany : o.hasAny = true
  · obtain ⟨hresult, hmarked, hplain⟩ :=
      h.obfuscate_mark hany hseparable.clearPlain hseparable.clear
    rw [h.roundTrips_iff_replace hany, hresult]
    refine (MarkStyle.replace_shown hmarked.marks (hplain.symm ▸ htext) hseparable.detached
      fun w m hmem => ?_).trans hplain
    rw [hseparable.decoded w m hmem, Option.getD_some]
  · exact .of_idle hany text

/-! ## Secrets that are too long for a placeholder -/

/-- The secrets known are too long for a placeholder, and none is contained in another. -/
def Regular (o : SecretObfuscator) : Prop :=
  ∀ secret, o.Known secret → Long secret ∧
    ∀ other, o.Known other → secret <:+: other → secret = other

theorem clearAll_of_long {words : List (JsString × JsString)} (hps : placeholderStyle.Marks ps)
    (hwords : ∀ w ∈ words, IsPlaceholderOf runtime o w)
    (hlong : ∀ secret, o.Known secret → Long secret) : ClearAll words ps :=
  hps.clearAll fun w hw => by
    obtain ⟨index, hindex, -⟩ := hwords w hw
    have hsecret := hlong w.1 ⟨index, hindex⟩
    exact ⟨isMark_of_isPlaceholderOf (hwords w hw), hsecret.2, hsecret.width_lt⟩

section
variable (h : Valid runtime o)
include h

/-- A word that is too long for a placeholder is never looked for across one. -/
theorem Valid.clearEntries_of_long (hany : o.hasAny = true) {entries : List RegexEntry}
    (hmode : ∀ entry ∈ entries, entry.mode = .obfuscate) (hplaceholders : Placeholders runtime o ps)
    (hlong : ∀ secret, (entries.foldl (processEntry runtime) (o, shown ps)).1.Known secret → Long
      secret) : ClearEntries runtime entries o ps := by
  induction entries generalizing o ps with
  | nil => trivial
  | cons entry entries ih =>
    have hmatches : ∀ m ∈ matchesOf entry (shown ps), m ≠ [] :=
      fun m hm => ne_nil_of_mem_matchesOf hm
    have hvalid := h.discoverAll hmatches hany
    have hany' : (SecretObfuscator.discoverAll runtime (matchesOf entry (shown ps)) o).1.hasAny =
        true := (hasAny_discoverAll _).trans hany
    have hmode' : ∀ e ∈ entries, e.mode = .obfuscate :=
      fun e he => hmode e (mem_cons_of_mem _ he)
    rw [foldl_cons, processEntry_eq (hmode entry mem_cons_self)] at hlong
    have hkept := (hvalid.foldl_processEntry hany' hmode' (replaceWords
      (SecretObfuscator.discoverAll runtime (matchesOf entry (shown ps)) o).2 (shown ps))).2
    have hclear : ClearAll (SecretObfuscator.discoverAll runtime (matchesOf entry (shown ps)) o).2
        ps := by
      refine clearAll_of_long hplaceholders.marks
        (fun w hw => (h.isPlaceholderOf_discoverAll hmatches hany hw).1) ?_
      rintro secret ⟨index, hindex⟩
      exact hlong secret ⟨index, hkept secret index hindex⟩
    refine ⟨hclear, ih hvalid hany' hmode'
      (h.placeholders_hideAll hany entry (shown ps) hplaceholders) ?_⟩
    have hshown := replaceWord_foldl (h.ne_nil_of_discoverAll hany entry (shown ps)) hclear
    rw [← hshown]
    exact hlong

/-- What a placeholder of the pieces is mapped back to. -/
theorem Valid.exists_decoded (hps : Placeholders runtime o ps) {w m : JsString}
    (hmem : .marked w m ∈ ps) :
    o.Known w ∧ ∃ secret, o.deobfuscateMap.get m = some secret ∧ o.Known secret := by
  obtain ⟨index, hindex, rfl⟩ := hps w m hmem
  obtain ⟨secret, hsecret⟩ := h.maps.covered w index hindex
  exact ⟨⟨index, hindex⟩, secret, hsecret, h.maps.decoded _ _ hsecret⟩

/-- With regular secrets, a text that comes back has its placeholders detached and decoded. -/
theorem Valid.detached_of_replace (hregular : Regular o) (hps : Placeholders runtime o ps)
    (htext : placeholderStyle.Unmarked (plain ps))
    (hback : replace placeholderStyle.find (fun m => (o.deobfuscateMap.get m).getD m) (shown ps) =
      plain ps) : placeholderStyle.Detached ps ∧
      ∀ w m, .marked w m ∈ ps → o.deobfuscateMap.get m = some w := by
  have hwords : ∀ w m, .marked w m ∈ ps → w ≠ [] ∧ placeholderStyle.fence ∉ w ∧
      ((o.deobfuscateMap.get m).getD m <+: w ∨ w <+: (o.deobfuscateMap.get m).getD m →
        (o.deobfuscateMap.get m).getD m = w) := by
    intro w m hmem
    obtain ⟨hknown, secret, hsecret, hknown'⟩ := h.exists_decoded hps hmem
    obtain ⟨hlong, hapart⟩ := hregular w hknown
    rw [hsecret, Option.getD_some]
    refine ⟨hlong.ne_nil, hlong.2, ?_⟩
    rintro (hpre | hpre)
    · exact (hregular secret hknown').2 w hknown hpre.isInfix
    · exact (hapart secret hknown' hpre.isInfix).symm
  have hother : ∀ m, placeholderStyle.IsMark m → (o.deobfuscateMap.get m).getD m = m ∨
      (o.deobfuscateMap.get m).getD m ≠ [] ∧
        placeholderStyle.fence ∉ (o.deobfuscateMap.get m).getD m := by
    intro m _
    cases hm : o.deobfuscateMap.get m with
    | none => exact .inl rfl
    | some secret =>
      have hlong := (hregular secret (h.maps.decoded m secret hm)).1
      exact .inr ⟨hlong.ne_nil, hlong.2⟩
  obtain ⟨hdetached, hlookup⟩ :=
    MarkStyle.detached_of_replace_shown hps.marks htext hwords hother hback
  refine ⟨hdetached, fun w m hmem => ?_⟩
  obtain ⟨-, secret, hsecret, -⟩ := h.exists_decoded hps hmem
  have hw := hlookup w m hmem
  rw [hsecret, Option.getD_some] at hw
  rw [hsecret, hw]

theorem Valid.separable_of_idle (hidle : o.hasAny = false) (text : JsString) :
    Separable runtime o text := by
  obtain ⟨hentries, hsorted⟩ := h.idle hidle
  have hwords : o.plainWords = [] := by rw [plainWords, hsorted]; rfl
  have hmark : o.mark runtime text = o.markPlain text := by rw [mark, hentries]; rfl
  have hnone : ∀ w m, .marked w m ∉ o.mark runtime text := by
    intro w m hmem
    obtain ⟨index, hindex, -⟩ := h.placeholders_markPlain text w m (hmark ▸ hmem)
    have hmem := h.mem_plainWords.mpr ⟨index, hindex⟩
    rw [hwords] at hmem
    exact absurd hmem not_mem_nil
  refine ⟨fun _ => hwords ▸ trivial, hentries ▸ trivial, ?_, fun w m hmem =>
    absurd hmem (hnone w m)⟩
  intro before tag w m after _ hps
  exact hnone w m (hps ▸ by simp)

/-- **A text comes back only if it is separable**, where the secrets known after it are
regular. -/
theorem Valid.separable (htext : placeholderStyle.Unmarked text)
    (hregular : Regular (o.obfuscate runtime text).1) (hroundTrips : RoundTrips runtime o text) :
    Separable runtime o text := by
  by_cases hany : o.hasAny = true
  · obtain ⟨hvalid, hkept⟩ := h.obfuscate text
    have hplain : needsSequence o.plainReplacements →
        ClearAll o.plainWords (text.map .unit) := fun _ => by
      refine clearAll_of_long (fun w m hmem => ?_) (fun w hw => h.isPlaceholderOf_plainWords hw) ?_
      · obtain ⟨u, -, heq⟩ := mem_map.mp hmem
        exact absurd heq (by simp)
      · rintro secret ⟨index, hindex⟩
        exact (hregular secret ⟨index, hkept secret index hindex⟩).1
    have hclear : ClearEntries runtime o.regexEntries o.combine (o.markPlain text) := by
      refine h.combine.clearEntries_of_long hany h.obfuscates (h.placeholders_markPlain text)
        fun secret hknown => (hregular secret ?_).1
      rwa [h.obfuscate_eq hany, ← h.shown_markPlain hplain]
    obtain ⟨hresult, hmarked, hmark⟩ := h.obfuscate_mark hany hplain hclear
    rw [h.roundTrips_iff_replace hany, hresult] at hroundTrips
    obtain ⟨hdetached, hdecoded⟩ := hvalid.detached_of_replace hregular hmarked
      (hmark.symm ▸ htext) (hroundTrips.trans hmark.symm)
    exact ⟨hplain, hclear, hdetached, hdecoded⟩
  · exact h.separable_of_idle (Bool.not_eq_true _ ▸ hany) text

end

theorem unmarked_of_count (h : text.count 0x23 ≤ 1) : placeholderStyle.Unmarked text := by
  rintro m ⟨tag, -, rfl⟩ hoccurs
  have hle := hoccurs.sublist.count_le (0x23 : CodeUnit)
  have htwo : 2 ≤ (placeholderStyle.markOf tag).count (0x23 : CodeUnit) := by
    simp only [MarkStyle.markOf, placeholderStyle, count_cons_self, count_append]
    omega
  omega

/-- A runtime that tells numbers of one digit apart and compiles one expression. -/
def keyRuntime : SecretRuntime where
  xxHash32 text _ := (text.headD 0).toNat
  hash _ := 0
  compileSecretRegex _ _ := some fun text =>
    if js "key-67890" <:+: text then [js "key-67890"] else []

/-- Two secrets, and one that an expression finds. -/
def threeSecrets : List SecretEntry :=
  [⟨.plain, js "sk-12345", none, none, none⟩, ⟨.plain, js "pw-abcdef", none, none, none⟩,
    ⟨.regex, js "key-67890", none, none, none⟩]

def threeObfuscator : SecretObfuscator := new keyRuntime threeSecrets

end SecretObfuscator
end GajaeCode
