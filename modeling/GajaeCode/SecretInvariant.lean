import GajaeCode.SecretObfuscator

/-! # What the secret obfuscator keeps

An obfuscator whose entries are all in obfuscate mode, after any number of texts: each secret
has one index, the placeholder of its index is what it is replaced by and is in the map back,
and the cached alternatives are those of the secrets it has.
-/
namespace GajaeCode
open JsString Marking List

namespace SecretObfuscator
variable {entries : List SecretEntry} {secret : JsString} {ms : List JsString} {entry : RegexEntry}
variable {word : JsString × JsString} {index : Nat}

theorem isHashChar_getD (i : Nat) :
    isHashChar (HASH_CHARS.getD (i % HASH_CHARS.length) 0) = true := by
  have hall : HASH_CHARS.all isHashChar = true := by decide
  have hlt : i % HASH_CHARS.length < HASH_CHARS.length := Nat.mod_lt _ (by decide)
  rw [getD, getElem?_eq_getElem hlt, Option.getD_some]
  exact all_eq_true.mp hall _ (getElem_mem hlt)

theorem length_hashChars (count v : Nat) : (hashChars count v).length = count := by
  induction count generalizing v with
  | zero => rfl
  | succ count ih => rw [hashChars, length_cons, ih]

theorem isHashChar_of_mem_hashChars {count v : Nat} {u : CodeUnit} (h : u ∈ hashChars count v) :
    isHashChar u = true := by
  induction count generalizing v with
  | zero => exact absurd h not_mem_nil
  | succ count ih =>
    rcases mem_cons.mp h with rfl | h
    · exact isHashChar_getD v
    · exact ih h

theorem isMark_buildPlaceholder (runtime : SecretRuntime) (index : Nat) :
    placeholderStyle.IsMark (buildPlaceholder runtime index) :=
  ⟨_, ⟨length_hashChars _ _, fun _ h => isHashChar_of_mem_hashChars h⟩, rfl⟩

/-- The maps agree: an index is given once, to the secret it is mapped to, and what a
placeholder is mapped back to has an index. -/
structure MapsAgree (runtime : SecretRuntime) (indexBySecret : InsertionMap JsString Nat)
    (mappings : InsertionMap Nat SecretMapping) (back : InsertionMap JsString JsString)
    (nextIndex : Nat) : Prop where
  indexed : ∀ secret index, indexBySecret.get secret = some index →
    mappings.get index = some ⟨secret, buildPlaceholder runtime index⟩
  fresh : ∀ index mapping, mappings.get index = some mapping → index < nextIndex
  decoded : ∀ placeholder secret, back.get placeholder = some secret →
    ∃ index, indexBySecret.get secret = some index
  covered : ∀ secret index, indexBySecret.get secret = some index →
    ∃ secret', back.get (buildPlaceholder runtime index) = some secret'
  nonempty : ∀ secret index, indexBySecret.get secret = some index → secret ≠ []

section Maps
variable {runtime : SecretRuntime} {indexBySecret : InsertionMap JsString Nat}
  {mappings : InsertionMap Nat SecretMapping} {back : InsertionMap JsString JsString}
  {nextIndex : Nat}

theorem mapsAgree_empty : MapsAgree runtime .empty .empty .empty 0 where
  indexed _ _ h := by simp at h
  fresh _ _ h := by simp at h
  decoded _ _ h := by simp at h
  covered _ _ h := by simp at h
  nonempty _ _ h := by simp at h

theorem MapsAgree.add (h : MapsAgree runtime indexBySecret mappings back nextIndex)
    {secret : JsString} (hne : secret ≠ []) : MapsAgree runtime (indexBySecret.set secret nextIndex)
      (mappings.set nextIndex ⟨secret, buildPlaceholder runtime nextIndex⟩)
      (back.set (buildPlaceholder runtime nextIndex) secret) (nextIndex + 1) where
  indexed s index hs := by
    rw [InsertionMap.get_set] at hs
    rw [InsertionMap.get_set]
    by_cases heq : s = secret
    · rw [if_pos heq] at hs
      obtain rfl := some.inj hs
      rw [if_pos rfl, heq]
    · rw [if_neg heq] at hs
      have hlt := h.fresh _ _ (h.indexed s index hs)
      rw [if_neg (Nat.ne_of_lt hlt)]
      exact h.indexed s index hs
  fresh index mapping hm := by
    rw [InsertionMap.get_set] at hm
    by_cases heq : index = nextIndex
    · omega
    · rw [if_neg heq] at hm
      exact Nat.lt_succ_of_lt (h.fresh index mapping hm)
  decoded placeholder s hs := by
    rw [InsertionMap.get_set] at hs
    by_cases hsecret : s = secret
    · exact ⟨nextIndex, by rw [InsertionMap.get_set, if_pos hsecret]⟩
    · by_cases heq : placeholder = buildPlaceholder runtime nextIndex
      · rw [if_pos heq] at hs
        exact absurd (some.inj hs).symm hsecret
      · rw [if_neg heq] at hs
        obtain ⟨index, hindex⟩ := h.decoded placeholder s hs
        exact ⟨index, by rw [InsertionMap.get_set, if_neg hsecret, hindex]⟩
  covered s index hs := by
    rw [InsertionMap.get_set]
    by_cases hplace : buildPlaceholder runtime index = buildPlaceholder runtime nextIndex
    · exact ⟨secret, by rw [if_pos hplace]⟩
    · rw [if_neg hplace]
      rw [InsertionMap.get_set] at hs
      by_cases heq : s = secret
      · rw [if_pos heq] at hs
        exact absurd (congrArg _ (some.inj hs).symm) hplace
      · rw [if_neg heq] at hs
        exact h.covered s index hs
  nonempty s index hs := by
    by_cases heq : s = secret
    · exact heq ▸ hne
    · rw [InsertionMap.get_set, if_neg heq] at hs
      exact h.nonempty s index hs

end Maps

def Known (o : SecretObfuscator) (secret : JsString) : Prop :=
  ∃ index, o.obfuscateIndexBySecret.get secret = some index

structure Valid (runtime : SecretRuntime) (o : SecretObfuscator) : Prop where
  maps : MapsAgree runtime o.obfuscateIndexBySecret o.obfuscateMappings o.deobfuscateMap
    o.nextIndex
  noReplacement : o.sortedReplaceMappings = []
  obfuscates : ∀ entry ∈ o.regexEntries, entry.mode = .obfuscate
  sorted : ∀ m, m ∈ o.sortedObfuscateMappings ↔
    m.placeholder = buildPlaceholder runtime m.index ∧
      o.obfuscateIndexBySecret.get m.secret = some m.index
  cached : o.combinedPlainRegexDirty = false → o.combine = o
  idle : o.hasAny = false → o.regexEntries = [] ∧ o.sortedObfuscateMappings = []

variable {runtime : SecretRuntime} {o : SecretObfuscator}

theorem Valid.ensure_eq (h : Valid runtime o) : o.ensureCombinedPlainRegex = o.combine := by
  unfold ensureCombinedPlainRegex
  by_cases hdirty : o.combinedPlainRegexDirty = true
  · rw [if_pos hdirty]
  · rw [if_neg hdirty, h.cached (Bool.not_eq_true _ ▸ hdirty)]

theorem Valid.combine (h : Valid runtime o) : Valid runtime o.combine where
  maps := h.maps
  noReplacement := h.noReplacement
  obfuscates := h.obfuscates
  sorted := h.sorted
  cached _ := rfl
  idle := h.idle

/-! ## The constructor -/

/-- What holds in the loop of the constructor. -/
structure Loaded (runtime : SecretRuntime) (o : SecretObfuscator) : Prop where
  maps : MapsAgree runtime o.obfuscateIndexBySecret o.obfuscateMappings o.deobfuscateMap
    o.nextIndex
  plain : o.plainMappings = o.obfuscateIndexBySecret
  noReplacement : o.replaceMappings = .empty
  obfuscates : ∀ entry ∈ o.regexEntries, entry.mode = .obfuscate
  dirty : o.combinedPlainRegexDirty = true

/-- The entries of the configuration are in obfuscate mode, and no plain secret is empty. -/
def Obfuscating (entries : List SecretEntry) : Prop :=
  ∀ entry ∈ entries, entry.modeOf = .obfuscate ∧ (entry.type = .plain → entry.content ≠ [])

theorem Loaded.addEntry (h : Loaded runtime o) {entry : SecretEntry}
    (hmode : entry.modeOf = .obfuscate) (hne : entry.type = .plain → entry.content ≠ []) :
    Loaded runtime (addEntry runtime o entry) := by
  unfold SecretObfuscator.addEntry
  cases htype : entry.type with
  | plain =>
    rw [hmode]
    exact ⟨h.maps.add (hne htype), by rw [h.plain], h.noReplacement, h.obfuscates, h.dirty⟩
  | regex =>
    dsimp only
    cases runtime.compileSecretRegex entry.content entry.flags with
    | none => exact h
    | some exec =>
      refine ⟨h.maps, h.plain, h.noReplacement, fun e he => ?_, h.dirty⟩
      rcases mem_append.mp he with he | he
      · exact h.obfuscates e he
      · rw [mem_singleton.mp he]
        exact hmode

theorem loaded_foldl (hentries : Obfuscating entries) {o : SecretObfuscator} (h : Loaded runtime o)
    : Loaded runtime (entries.foldl (addEntry runtime) o) := by
  induction entries generalizing o with
  | nil => exact h
  | cons entry entries ih =>
    obtain ⟨hmode, hne⟩ := hentries entry mem_cons_self
    exact ih (fun e he => hentries e (mem_cons_of_mem _ he)) (h.addEntry hmode hne)

theorem index_addEntry (entry : SecretEntry)
    (h : ∃ index, o.obfuscateIndexBySecret.get secret = some index) :
    ∃ index, (addEntry runtime o entry).obfuscateIndexBySecret.get secret = some index := by
  unfold SecretObfuscator.addEntry
  split
  · dsimp only
    rw [InsertionMap.get_set]
    split_ifs
    · exact ⟨_, rfl⟩
    · exact h
  · exact h
  · cases runtime.compileSecretRegex entry.content entry.flags <;> exact h

theorem index_foldl_addEntry {o : SecretObfuscator}
    (h : (∃ index, o.obfuscateIndexBySecret.get secret = some index) ∨ ∃ entry ∈ entries,
      entry.type = .plain ∧ entry.modeOf = .obfuscate ∧ entry.content = secret) :
    ∃ index, (entries.foldl (addEntry runtime) o).obfuscateIndexBySecret.get secret =
      some index := by
  induction entries generalizing o with
  | nil =>
    rcases h with hindex | ⟨entry, hmem, -⟩
    · exact hindex
    · exact absurd hmem not_mem_nil
  | cons entry entries ih =>
    refine ih ?_
    rcases h with hindex | ⟨e, hmem, htype, hmode, hcontent⟩
    · exact .inl (index_addEntry entry hindex)
    · rcases mem_cons.mp hmem with rfl | hmem
      · refine .inl ⟨o.nextIndex, ?_⟩
        unfold SecretObfuscator.addEntry
        rw [htype, hmode]
        dsimp only
        rw [InsertionMap.get_set, if_pos hcontent.symm]
      · exact .inr ⟨e, hmem, htype, hmode, hcontent⟩

def plainSecrets (entries : List SecretEntry) : List JsString :=
  (entries.filter fun entry => entry.type = .plain).map SecretEntry.content

theorem known_new (hentries : Obfuscating entries) (h : secret ∈ plainSecrets entries) :
    (new runtime entries).Known secret := by
  obtain ⟨entry, hmem, rfl⟩ := mem_map.mp h
  obtain ⟨hmem, htype⟩ := mem_filter.mp hmem
  exact index_foldl_addEntry (.inr ⟨entry, hmem, of_decide_eq_true htype,
    (hentries entry hmem).1, rfl⟩)

theorem mem_longestFirst {V : Type} {entries : List (JsString × V)} {e : JsString × V} :
    e ∈ longestFirst entries ↔ e ∈ entries := mem_insertionSort _

/-- The sorted mappings are those of the plain secrets, each with its placeholder. -/
theorem mem_sorted_new (h : Loaded runtime (entries.foldl (addEntry runtime) initial))
    (m : SortedMapping) : m ∈ (new runtime entries).sortedObfuscateMappings ↔
      m.placeholder = buildPlaceholder runtime m.index ∧
        (new runtime entries).obfuscateIndexBySecret.get m.secret = some m.index := by
  unfold new
  dsimp only
  rw [h.plain]
  generalize entries.foldl (addEntry runtime) initial = o at h
  simp only [mem_map, mem_longestFirst]
  constructor
  · rintro ⟨⟨secret, index⟩, hmem, rfl⟩
    have hindex := InsertionMap.mem_entries_iff.mp hmem
    refine ⟨?_, hindex⟩
    dsimp only
    rw [h.maps.indexed _ _ hindex]
    rfl
  · rintro ⟨hplaceholder, hindex⟩
    refine ⟨(m.secret, m.index), InsertionMap.mem_entries_iff.mpr hindex, ?_⟩
    dsimp only
    rw [h.maps.indexed _ _ hindex, Option.map_some, Option.getD_some, ← hplaceholder]

theorem valid_new (hentries : Obfuscating entries) : Valid runtime (new runtime entries) := by
  have h : Loaded runtime (entries.foldl (addEntry runtime) initial) :=
    loaded_foldl hentries ⟨mapsAgree_empty, rfl, rfl, fun e he => absurd he not_mem_nil, rfl⟩
  refine ⟨h.maps, ?_, h.obfuscates, ?_, fun hclean => ?_, fun hidle => ?_⟩
  · unfold new
    dsimp only
    rw [h.noReplacement]
    rfl
  · exact mem_sorted_new h
  · rw [show (new runtime entries).combinedPlainRegexDirty = _ from h.dirty] at hclean
    exact absurd hclean (by simp)
  · have hnil : entries = [] := by simpa [new] using hidle
    rw [hnil]
    exact ⟨rfl, rfl⟩

/-! ## Discovery -/

theorem insertionPlace_le (mappings : List SortedMapping) (length : Nat) {fuel lo hi : Nat}
    (h : lo ≤ hi) : insertionPlace mappings length fuel lo hi ≤ hi := by
  induction fuel generalizing lo hi with
  | zero => exact h
  | succ fuel ih =>
    rw [insertionPlace]
    by_cases hlt : lo < hi
    · rw [if_pos hlt]
      dsimp only
      split_ifs
      · exact (ih (by omega)).trans (by omega)
      · exact ih (by omega)
    · rw [if_neg hlt]
      exact h

theorem mem_insertSortedObfuscateMapping {mappings : List SortedMapping}
    {mapping m : SortedMapping} :
    m ∈ insertSortedObfuscateMapping mappings mapping ↔ m = mapping ∨ m ∈ mappings :=
  mem_insertIdx (insertionPlace_le mappings _ (Nat.zero_le _))

theorem index_placeholderFor (matchValue : JsString)
    (h : o.obfuscateIndexBySecret.get secret = some index) :
    (placeholderFor runtime o matchValue).1.obfuscateIndexBySecret.get secret = some index := by
  unfold placeholderFor
  cases hmatch : o.obfuscateIndexBySecret.get matchValue with
  | some i => exact h
  | none =>
    dsimp only
    rw [InsertionMap.get_set, if_neg]
    · exact h
    · rintro rfl
      rw [hmatch] at h
      exact absurd h (by simp)

theorem Valid.placeholderFor_eq (h : Valid runtime o) (matchValue : JsString) :
    ∃ index, (placeholderFor runtime o matchValue).1.obfuscateIndexBySecret.get matchValue =
        some index ∧ (placeholderFor runtime o matchValue).2 = buildPlaceholder runtime index := by
  unfold placeholderFor
  cases hmatch : o.obfuscateIndexBySecret.get matchValue with
  | some index =>
    refine ⟨index, hmatch, ?_⟩
    dsimp only
    rw [h.maps.indexed _ _ hmatch]
    rfl
  | none => exact ⟨o.nextIndex, by rw [InsertionMap.get_set, if_pos rfl], rfl⟩

theorem Valid.placeholderFor (h : Valid runtime o) {matchValue : JsString}
    (hne : matchValue ≠ []) (hany : o.hasAny = true) :
    Valid runtime (placeholderFor runtime o matchValue).1 := by
  unfold SecretObfuscator.placeholderFor
  cases hmatch : o.obfuscateIndexBySecret.get matchValue with
  | some index => exact h
  | none =>
    refine ⟨h.maps.add hne, h.noReplacement, h.obfuscates, fun m => ?_,
      fun hclean => absurd hclean (by simp), fun hidle => ?_⟩
    · dsimp only
      rw [mem_insertSortedObfuscateMapping, h.sorted m, InsertionMap.get_set]
      by_cases hsecret : m.secret = matchValue
      · rw [if_pos hsecret, hsecret, hmatch]
        constructor
        · rintro (rfl | ⟨-, hindex⟩)
          · exact ⟨rfl, rfl⟩
          · exact absurd hindex (by simp)
        · rintro ⟨hplaceholder, hindex⟩
          have hnext := some.inj hindex
          obtain ⟨secret, index, placeholder⟩ := m
          dsimp only at hsecret hplaceholder hnext
          exact .inl (by rw [hsecret, hplaceholder, hnext])
      · rw [if_neg hsecret, or_iff_right]
        exact fun heq => hsecret (congrArg SortedMapping.secret heq)
    · exact absurd (hany.symm.trans hidle) (by simp)

theorem hasAny_placeholderFor (matchValue : JsString) :
    (SecretObfuscator.placeholderFor runtime o matchValue).1.hasAny = o.hasAny := by
  unfold SecretObfuscator.placeholderFor
  cases o.obfuscateIndexBySecret.get matchValue <;> rfl

/-- The placeholders of some matches, one after the other. -/
def discoverAll (runtime : SecretRuntime) :
    List JsString → SecretObfuscator → SecretObfuscator × List (JsString × JsString)
  | [], o => (o, [])
  | m :: ms, o =>
    let found := SecretObfuscator.placeholderFor runtime o m
    let rest := discoverAll runtime ms found.1
    (rest.1, (m, found.2) :: rest.2)

theorem index_discoverAll (ms : List JsString)
    (h : o.obfuscateIndexBySecret.get secret = some index) :
    (discoverAll runtime ms o).1.obfuscateIndexBySecret.get secret = some index := by
  induction ms generalizing o with
  | nil => exact h
  | cons m ms ih => exact ih (index_placeholderFor m h)

theorem Valid.discoverAll (h : Valid runtime o) (hms : ∀ m ∈ ms, m ≠ []) (hany : o.hasAny = true) :
    Valid runtime (discoverAll runtime ms o).1 := by
  induction ms generalizing o with
  | nil => exact h
  | cons m ms ih =>
    exact ih (h.placeholderFor (hms m mem_cons_self) hany)
      (fun m' hm' => hms m' (mem_cons_of_mem _ hm')) ((hasAny_placeholderFor m).trans hany)

def IsPlaceholderOf (runtime : SecretRuntime) (o : SecretObfuscator) (word : JsString × JsString) :
    Prop :=
  ∃ index, o.obfuscateIndexBySecret.get word.1 = some index ∧
    word.2 = buildPlaceholder runtime index

theorem Valid.isPlaceholderOf_discoverAll (h : Valid runtime o) (hms : ∀ m ∈ ms, m ≠ [])
    (hany : o.hasAny = true) (hword : word ∈ (SecretObfuscator.discoverAll runtime ms o).2) :
    IsPlaceholderOf runtime (SecretObfuscator.discoverAll runtime ms o).1 word ∧ word.1 ∈ ms := by
  induction ms generalizing o with
  | nil => exact absurd hword not_mem_nil
  | cons m ms ih =>
    rcases mem_cons.mp hword with rfl | hword
    · obtain ⟨index, hindex, hplaceholder⟩ := h.placeholderFor_eq m
      exact ⟨⟨index, index_discoverAll ms hindex, hplaceholder⟩, mem_cons_self⟩
    · obtain ⟨hplaceholder, hmem⟩ := ih (h.placeholderFor (hms m mem_cons_self) hany)
        (fun m' hm' => hms m' (mem_cons_of_mem _ hm')) ((hasAny_placeholderFor m).trans hany)
        hword
      exact ⟨hplaceholder, mem_cons_of_mem _ hmem⟩

/-! ## Replacing -/

theorem replaceAll_eq {search : JsString} (hne : search ≠ []) (text replacement : JsString) :
    replaceAll text search replacement = replaceWord search replacement text := by
  unfold replaceAll
  by_cases hoccurs : search <:+: text
  · rw [if_neg (by simp [hne, hoccurs])]
  · rw [if_pos (.inr hoccurs), replaceWord_of_not_occurs hne _ hoccurs]

/-- The words are replaced one after the other. -/
def replaceWords (words : List (JsString × JsString)) (text : JsString) : JsString :=
  words.foldl (fun text w => replaceWord w.1 w.2 text) text

theorem foldl_replaceAll {words : List (JsString × JsString)} (hne : ∀ w ∈ words, w.1 ≠ [])
    (text : JsString) :
    words.foldl (fun text w => replaceAll text w.1 w.2) text = replaceWords words text := by
  induction words generalizing text with
  | nil => rfl
  | cons w words ih =>
    rw [foldl_cons, replaceAll_eq (hne w mem_cons_self)]
    exact ih (fun w' hw' => hne w' (mem_cons_of_mem _ hw')) _

theorem ne_nil_of_mem_matchesOf {text m : JsString} (h : m ∈ matchesOf entry text) : m ≠ [] := by
  have hmem := (mem_filter.mp (mem_firsts.mp h)).2
  exact of_decide_eq_true hmem

theorem replaceMatch_foldl (hmode : entry.mode = .obfuscate) (hms : ∀ m ∈ ms, m ≠ [])
    (o : SecretObfuscator) (text : JsString) : ms.foldl (replaceMatch runtime entry) (o, text) =
      ((discoverAll runtime ms o).1, replaceWords (discoverAll runtime ms o).2 text) := by
  induction ms generalizing o text with
  | nil => rfl
  | cons m ms ih =>
    have hstep : replaceMatch runtime entry (o, text) m =
        ((placeholderFor runtime o m).1, replaceWord m (placeholderFor runtime o m).2 text) := by
      unfold replaceMatch
      rw [hmode, ← replaceAll_eq (hms m mem_cons_self)]
    rw [foldl_cons, hstep, ih fun m' hm' => hms m' (mem_cons_of_mem _ hm')]
    rfl

theorem processEntry_eq (hmode : entry.mode = .obfuscate) (o : SecretObfuscator) (text : JsString) :
    processEntry runtime (o, text) entry =
      let found := discoverAll runtime (matchesOf entry text) o
      (found.1, replaceWords found.2 text) :=
  replaceMatch_foldl hmode (fun _ hm => ne_nil_of_mem_matchesOf hm) o text

/-- The secrets that the first pass replaces, with their placeholders. -/
def plainWords (o : SecretObfuscator) : List (JsString × JsString) :=
  o.sortedObfuscateMappings.map fun m => (m.secret, m.placeholder)

/-- What the combined expression replaces a secret by. -/
def combinedMark (o : SecretObfuscator) (word : JsString) : JsString :=
  (o.combine.combinedPlainReplacementBySecret.get word).getD word

theorem Valid.isPlaceholderOf_plainWords (h : Valid runtime o) (hword : word ∈ o.plainWords) :
    IsPlaceholderOf runtime o word := by
  obtain ⟨m, hm, rfl⟩ := mem_map.mp hword
  obtain ⟨hplaceholder, hindex⟩ := (h.sorted m).mp hm
  exact ⟨m.index, hindex, hplaceholder⟩

theorem Valid.plainWords_ne_nil (h : Valid runtime o) : ∀ word ∈ o.plainWords, word.1 ≠ [] := by
  intro word hword
  obtain ⟨index, hindex, -⟩ := h.isPlaceholderOf_plainWords hword
  exact h.maps.nonempty _ _ hindex

theorem Valid.mem_plainWords (h : Valid runtime o) :
    secret ∈ o.plainWords.map Prod.fst ↔ o.Known secret := by
  constructor
  · intro hmem
    obtain ⟨word, hword, rfl⟩ := mem_map.mp hmem
    obtain ⟨index, hindex, -⟩ := h.isPlaceholderOf_plainWords hword
    exact ⟨index, hindex⟩
  · rintro ⟨index, hindex⟩
    have hmem := (h.sorted ⟨secret, index, buildPlaceholder runtime index⟩).mpr ⟨rfl, hindex⟩
    exact mem_map_of_mem (mem_map_of_mem hmem)

theorem get_setUnlessKnown (m : InsertionMap JsString JsString) (mapping : PlainMapping)
    (word : JsString) : (setUnlessKnown m mapping).get word =
      if m.get word = none ∧ word = mapping.secret then some mapping.replacement
      else m.get word := by
  unfold setUnlessKnown
  by_cases hsecret : word = mapping.secret
  · cases hknown : m.get mapping.secret with
    | some replacement => simp [hsecret, hknown]
    | none => simp [hsecret, hknown, InsertionMap.get_set]
  · by_cases hknown : (m.get mapping.secret).isSome
    · rw [if_pos hknown, if_neg fun hfirst => hsecret hfirst.2]
    · rw [if_neg hknown, InsertionMap.get_set, if_neg hsecret,
        if_neg fun hfirst => hsecret hfirst.2]

/-- What is looked up for a secret is one of its replacements. -/
theorem get_setUnlessKnown_foldl {mappings : List PlainMapping}
    {m : InsertionMap JsString JsString} {word : JsString}
    (h : (m.get word).isSome ∨ word ∈ mappings.map (·.secret)) :
    ∃ replacement, (mappings.foldl setUnlessKnown m).get word = some replacement ∧
      (m.get word = some replacement ∨ ⟨word, replacement⟩ ∈ mappings) := by
  induction mappings generalizing m with
  | nil =>
    rcases h with hsome | hmem
    · obtain ⟨replacement, hget⟩ := Option.isSome_iff_exists.mp hsome
      exact ⟨replacement, hget, .inl hget⟩
    · exact absurd hmem not_mem_nil
  | cons mapping mappings ih =>
    have hget := get_setUnlessKnown m mapping word
    have hnext : ((setUnlessKnown m mapping).get word).isSome ∨ word ∈ mappings.map (·.secret) := by
      rw [hget]
      cases hknown : m.get word with
      | some replacement => exact .inl (by simp)
      | none =>
        rw [hknown] at h
        rcases h with hsome | hmem
        · exact absurd hsome (by simp)
        · rcases mem_cons.mp hmem with rfl | hmem
          · exact .inl (by simp)
          · exact .inr hmem
    obtain ⟨replacement, hreplacement, hor⟩ := ih hnext
    refine ⟨replacement, hreplacement, ?_⟩
    rcases hor with hold | hmem
    · rw [hget] at hold
      by_cases hfirst : m.get word = none ∧ word = mapping.secret
      · rw [if_pos hfirst] at hold
        rw [hfirst.2, ← some.inj hold]
        exact .inr mem_cons_self
      · rw [if_neg hfirst] at hold
        exact .inl hold
    · exact .inr (mem_cons_of_mem _ hmem)

theorem Valid.plainReplacements_eq (h : Valid runtime o) : o.plainReplacements =
    o.sortedObfuscateMappings.map fun m => ⟨m.secret, m.placeholder⟩ := by
  rw [plainReplacements, h.noReplacement, nil_append]

theorem Valid.map_secret_plainReplacements (h : Valid runtime o) :
    o.plainReplacements.map (·.secret) = o.plainWords.map Prod.fst := by
  rw [h.plainReplacements_eq, plainWords, map_map, map_map]
  rfl

theorem Valid.isPlaceholderOf_combinedMark (h : Valid runtime o)
    (hsecret : secret ∈ o.plainWords.map Prod.fst) :
    IsPlaceholderOf runtime o (secret, o.combinedMark secret) := by
  have hsecrets := h.map_secret_plainReplacements
  obtain ⟨replacement, hget, hnone | hmem⟩ :=
    @get_setUnlessKnown_foldl o.plainReplacements .empty secret (.inr (hsecrets ▸ hsecret))
  · exact absurd hnone (by simp)
  · rw [combinedMark, show o.combine.combinedPlainReplacementBySecret.get secret = _ from hget,
      Option.getD_some]
    rw [h.plainReplacements_eq] at hmem
    obtain ⟨m, hm, heq⟩ := mem_map.mp hmem
    obtain ⟨rfl, rfl⟩ := PlainMapping.mk.inj heq
    exact h.isPlaceholderOf_plainWords (mem_map_of_mem hm)

/-- **The first pass** replaces the words one after the other, or all of them at once. -/
theorem Valid.obfuscatePlainMappings_eq (h : Valid runtime o) (text : JsString) :
    o.obfuscatePlainMappings text = (o.combine,
      if needsSequence o.plainReplacements then replaceWords o.plainWords text
      else replace (firstOf (o.plainWords.map Prod.fst)) o.combinedMark text) := by
  have hsecrets := h.map_secret_plainReplacements
  unfold obfuscatePlainMappings
  rw [h.ensure_eq]
  by_cases hsequence : needsSequence o.plainReplacements
  · rw [if_pos hsequence]
    have hfold : o.combine.obfuscatePlainMappingsSequential text =
        replaceWords o.plainWords text := by
      rw [obfuscatePlainMappingsSequential, show o.combine.sortedReplaceMappings = [] from
        h.noReplacement, foldl_nil, ← foldl_replaceAll h.plainWords_ne_nil, plainWords,
        foldl_map]
      rfl
    rw [← hfold]
    exact if_pos hsequence
  · rw [if_neg hsequence]
    refine (if_neg hsequence).trans ?_
    by_cases hnil : o.plainReplacements = []
    · have hregex : o.combine.combinedPlainRegex = none := if_pos hnil
      have hwords : o.plainWords.map Prod.fst = [] := by rw [← hsecrets, hnil]; rfl
      have hstay : replace (firstOf []) o.combinedMark text = text :=
        replace_of_not_found rfl fun _ _ _ => rfl
      rw [hregex, hwords, hstay]
    · have hregex : o.combine.combinedPlainRegex = some (o.plainWords.map Prod.fst) := by
        rw [← hsecrets]
        exact if_neg hnil
      rw [hregex]
      rfl

theorem hasAny_discoverAll (ms : List JsString) :
    (SecretObfuscator.discoverAll runtime ms o).1.hasAny = o.hasAny := by
  induction ms generalizing o with
  | nil => rfl
  | cons m ms ih => exact ih.trans (hasAny_placeholderFor m)

theorem Valid.hasAny_foldl_processEntry {entries : List RegexEntry}
    (hmode : ∀ entry ∈ entries, entry.mode = .obfuscate) (o : SecretObfuscator) (text : JsString) :
    (entries.foldl (processEntry runtime) (o, text)).1.hasAny = o.hasAny := by
  induction entries generalizing o text with
  | nil => rfl
  | cons entry entries ih =>
    rw [foldl_cons, processEntry_eq (hmode entry mem_cons_self)]
    exact (ih (fun e he => hmode e (mem_cons_of_mem _ he)) _ _).trans (hasAny_discoverAll _)

/-- What the regular expressions do to an obfuscator: it stays valid and forgets no index. -/
theorem Valid.foldl_processEntry (h : Valid runtime o) (hany : o.hasAny = true)
    {entries : List RegexEntry} (hmode : ∀ entry ∈ entries, entry.mode = .obfuscate)
    (text : JsString) : Valid runtime (entries.foldl (processEntry runtime) (o, text)).1 ∧
      ∀ secret index, o.obfuscateIndexBySecret.get secret = some index →
        (entries.foldl (processEntry runtime) (o, text)).1.obfuscateIndexBySecret.get secret =
          some index := by
  induction entries generalizing o text with
  | nil => exact ⟨h, fun _ _ hindex => hindex⟩
  | cons entry entries ih =>
    have hmatches : ∀ m ∈ matchesOf entry text, m ≠ [] := fun m hm => ne_nil_of_mem_matchesOf hm
    rw [foldl_cons, processEntry_eq (hmode entry mem_cons_self)]
    obtain ⟨hvalid, hkept⟩ := ih (h.discoverAll hmatches hany)
      ((hasAny_discoverAll _).trans hany) (fun e he => hmode e (mem_cons_of_mem _ he))
      (replaceWords (SecretObfuscator.discoverAll runtime (matchesOf entry text) o).2 text)
    exact ⟨hvalid, fun secret index hindex => hkept secret index (index_discoverAll _ hindex)⟩

theorem Valid.obfuscate_eq (h : Valid runtime o) (hany : o.hasAny = true) (text : JsString) :
    o.obfuscate runtime text = o.regexEntries.foldl (processEntry runtime)
      (o.combine, (o.obfuscatePlainMappings text).2) := by
  unfold SecretObfuscator.obfuscate
  rw [if_neg (by simp [hany]), h.obfuscatePlainMappings_eq]

/-- **The obfuscator stays valid**, and what is known keeps its index. -/
theorem Valid.obfuscate (h : Valid runtime o) (text : JsString) :
    Valid runtime (o.obfuscate runtime text).1 ∧
      ∀ secret index, o.obfuscateIndexBySecret.get secret = some index →
        (o.obfuscate runtime text).1.obfuscateIndexBySecret.get secret = some index := by
  by_cases hany : o.hasAny = true
  · rw [h.obfuscate_eq hany]
    exact h.combine.foldl_processEntry hany h.obfuscates _
  · unfold SecretObfuscator.obfuscate
    rw [if_pos (by simp [hany])]
    exact ⟨h, fun _ _ hindex => hindex⟩

def after (runtime : SecretRuntime) (o : SecretObfuscator) (texts : List JsString) :
    SecretObfuscator := texts.foldl (fun o text => (o.obfuscate runtime text).1) o

theorem Valid.after (h : Valid runtime o) (texts : List JsString) :
    Valid runtime (SecretObfuscator.after runtime o texts) ∧
      ∀ secret, o.Known secret → (SecretObfuscator.after runtime o texts).Known secret := by
  induction texts generalizing o with
  | nil => exact ⟨h, fun _ hknown => hknown⟩
  | cons text texts ih =>
    obtain ⟨hvalid, hkept⟩ := h.obfuscate text
    obtain ⟨hafter, hknown⟩ := ih hvalid
    exact ⟨hafter, fun secret ⟨index, hindex⟩ => hknown secret ⟨index, hkept _ _ hindex⟩⟩

end SecretObfuscator
end GajaeCode
