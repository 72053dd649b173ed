import GajaeCode.StdinStream
import GajaeCode.Utf8Window

/-! # UTF-8 on stdin

`StdinBuffer.process` of byte chunks, while no timer fires: however UTF-8 is cut into chunks, the
texts that reach the sequence splitter are its decoding, and no byte becomes a Meta key
(`utf8_survives`).  Of the platform's decoder it is assumed that it gives a character when its
last byte is written (`StringDecoder.Incremental`).
-/
namespace GajaeCode
open JsString List

/-- The outputs of a decoder, one after the other. -/
def StringDecoder.writeAll {D : Type} (dec : StringDecoder D) : D → List (List UInt8) → JsString × D
  | d, [] => ([], d)
  | d, chunk :: chunks =>
    let out := dec.write d chunk
    let rest := dec.writeAll out.2 chunks
    (out.1 ++ rest.1, rest.2)

/-- Some bytes of a character, and not all of them. -/
def PartOfChar (part : List UInt8) : Prop :=
  ∃ c : Char, part <+: String.utf8EncodeChar c ∧ part.length < c.utf8Size

/-- What has been given are the characters that are complete, however their bytes were cut. -/
def StringDecoder.Incremental {D : Type} (dec : StringDecoder D) : Prop :=
  ∀ (chunks : List (List UInt8)) (cs : List Char) (part : List UInt8), PartOfChar part →
    chunks.flatten = charBytes cs ++ part → (dec.writeAll dec.new chunks).1 = ofChars cs

namespace StdinStream
variable {rest : List Char} {todo part : List UInt8}

theorem isContinuationByte_trail :
    ∀ n < 64, isContinuationByte (UInt8.ofNat (n + 0x80)) = true := by
  decide

theorem expectedLength_single : ∀ n < 128, expectedLength (UInt8.ofNat n) = 0 ∧
    isContinuationByte (UInt8.ofNat n) = false ∧ UInt8.ofNat n ≤ 127 := by
  decide

theorem expectedLength_two : ∀ n < 32, 2 ≤ n → expectedLength (UInt8.ofNat (n + 0xc0)) = 2 ∧
    isContinuationByte (UInt8.ofNat (n + 0xc0)) = false := by
  decide

theorem expectedLength_three : ∀ n < 16, expectedLength (UInt8.ofNat (n + 0xe0)) = 3 ∧
    isContinuationByte (UInt8.ofNat (n + 0xe0)) = false := by
  decide

theorem expectedLength_four : ∀ n < 5, expectedLength (UInt8.ofNat (n + 0xf0)) = 4 ∧
    isContinuationByte (UInt8.ofNat (n + 0xf0)) = false := by
  decide

theorem isUtf8LeadByte_of_expectedLength {b : UInt8} (h : expectedLength b ≠ 0) :
    isUtf8LeadByte b = true := by
  unfold expectedLength at h
  simp only [isUtf8LeadByte, Bool.and_eq_true, decide_eq_true_eq, UInt8.le_iff_toNat_le,
    UInt8.reduceToNat] at h ⊢
  split_ifs at h <;> omega

/-- The first byte of a character tells its length, the others are continuation bytes. -/
theorem utf8EncodeChar_lead (c : Char) : ∃ b bs, String.utf8EncodeChar c = b :: bs ∧
    isContinuationByte b = false ∧ (∀ b' ∈ bs, isContinuationByte b' = true) ∧
    ((bs = [] ∧ expectedLength b = 0 ∧ b ≤ 127) ∨
      (bs ≠ [] ∧ expectedLength b = bs.length + 1)) := by
  have htrail : ∀ m, isContinuationByte (UInt8.ofNat (m % 0x40 + 0x80)) = true := fun m =>
    isContinuationByte_trail _ (Nat.mod_lt _ (by decide))
  have hvalid : c.val.toNat < 0xd800 ∨ 0xdfff < c.val.toNat ∧ c.val.toNat < 0x110000 :=
    toNat_lt_or c
  rw [String.utf8EncodeChar]
  split_ifs with h1 h2 h3
  · obtain ⟨hlength, hcont, hle⟩ := expectedLength_single c.val.toNat (by omega)
    exact ⟨_, _, rfl, hcont, by simp, .inl ⟨rfl, hlength, hle⟩⟩
  · obtain ⟨hlength, hcont⟩ := expectedLength_two (c.val.toNat / 64 % 0x20)
      (Nat.mod_lt _ (by decide)) (by omega)
    exact ⟨_, _, rfl, hcont, forall_mem_singleton.mpr (htrail _), .inr ⟨by simp, hlength⟩⟩
  · obtain ⟨hlength, hcont⟩ := expectedLength_three _ (Nat.mod_lt (c.val.toNat / 4096) (by decide))
    exact ⟨_, _, rfl, hcont, forall_mem_cons.mpr ⟨htrail _,
      forall_mem_singleton.mpr (htrail _)⟩, .inr ⟨by simp, hlength⟩⟩
  · obtain ⟨hlength, hcont⟩ := expectedLength_four (c.val.toNat / 262144 % 8) (by omega)
    exact ⟨_, _, rfl, hcont, forall_mem_cons.mpr ⟨htrail _, forall_mem_cons.mpr ⟨htrail _,
      forall_mem_singleton.mpr (htrail _)⟩⟩, .inr ⟨by simp, hlength⟩⟩

/-- Only the bytes from the last one on that is no continuation byte are looked at. -/
theorem endsWithIncomplete_lead (front : List UInt8) {b : UInt8} {bs : List UInt8}
    (hb : isContinuationByte b = false) (hbs : ∀ b' ∈ bs, isContinuationByte b' = true) :
    endsWithIncompleteUtf8Sequence (front ++ b :: bs) =
      (decide (expectedLength b > 0) && decide (bs.length + 1 < expectedLength b)) := by
  have hall : ∀ b' ∈ bs.reverse, isContinuationByte b' = true := fun b' hb' =>
    hbs b' (mem_reverse.mp hb')
  have hrev : (front ++ b :: bs).reverse = bs.reverse ++ b :: front.reverse := by simp
  have htake : (front ++ b :: bs).rtakeWhile isContinuationByte = bs := by
    rw [rtakeWhile, hrev, takeWhile_append_of_pos hall,
      takeWhile_cons_of_neg (by simp [hb]), append_nil, reverse_reverse]
  have hdrop : (front ++ b :: bs).rdropWhile isContinuationByte = front ++ [b] := by
    rw [rdropWhile, hrev, dropWhile_append_of_pos hall, dropWhile_cons_of_neg (by simp [hb])]
    simp
  simp only [endsWithIncompleteUtf8Sequence, htake, hdrop, getLast?_concat]

theorem exists_lead {bytes : List UInt8} (h : bytes.all isContinuationByte = false) :
    ∃ front b bs, bytes = front ++ b :: bs ∧ isContinuationByte b = false ∧
      ∀ b' ∈ bs, isContinuationByte b' = true := by
  induction bytes with
  | nil => cases h
  | cons byte bytes ih =>
    by_cases hall : bytes.all isContinuationByte = true
    · refine ⟨[], byte, bytes, rfl, ?_, all_eq_true.mp hall⟩
      simpa [all_cons, hall] using h
    · obtain ⟨front, b, bs, rfl, hb, hbs⟩ := ih (Bool.not_eq_true _ ▸ hall)
      exact ⟨byte :: front, b, bs, rfl, hb, hbs⟩

theorem endsWithIncomplete_append (front : List UInt8) {bytes : List UInt8}
    (h : bytes.all isContinuationByte = false) :
    endsWithIncompleteUtf8Sequence (front ++ bytes) = endsWithIncompleteUtf8Sequence bytes := by
  obtain ⟨front', b, bs, rfl, hb, hbs⟩ := exists_lead h
  rw [← append_assoc, endsWithIncomplete_lead _ hb hbs, endsWithIncomplete_lead _ hb hbs]

/-! ## Where the bytes stand -/

/-- The bytes `part` of the characters `rest` have come, fewer than the first one has; `todo` have
not. -/
structure At (rest : List Char) (part todo : List UInt8) : Prop where
  bytes : part ++ todo = charBytes rest
  short : ∀ c ∈ rest.head?, part.length < c.utf8Size

theorem exists_at {front : List UInt8} (h : front ++ todo = charBytes rest) : ∃ done rest' part,
      rest = done ++ rest' ∧ front = charBytes done ++ part ∧ At rest' part todo := by
  induction rest generalizing front with
  | nil => exact ⟨[], [], front, rfl, rfl, h, nofun⟩
  | cons c rest ih =>
    by_cases hshort : front.length < c.utf8Size
    · exact ⟨[], c :: rest, front, rfl, rfl, h, fun d hd => some.inj hd ▸ hshort⟩
    · have hprefix : String.utf8EncodeChar c <+: front := by
        refine prefix_of_prefix_length_le (prefix_append _ (charBytes rest)) ?_ ?_
        · rw [← charBytes_cons, ← h]
          exact prefix_append _ _
        · rw [String.length_utf8EncodeChar]
          exact not_lt.mp hshort
      obtain ⟨more, rfl⟩ := hprefix
      rw [charBytes_cons, append_assoc] at h
      obtain ⟨done, rest', part, rfl, rfl, hat⟩ := ih (append_cancel_left h)
      exact ⟨c :: done, rest', part, rfl, by simp, hat⟩

theorem At.cons {c : Char} {rest : List Char} {part todo : List UInt8}
    (h : At (c :: rest) part todo) : ∃ more, more ≠ [] ∧
      String.utf8EncodeChar c = part ++ more ∧ todo = more ++ charBytes rest := by
  have hshort := h.short c rfl
  have hprefix : part <+: String.utf8EncodeChar c := by
    have htext : part <+: charBytes (c :: rest) := h.bytes ▸ prefix_append _ _
    refine prefix_of_prefix_length_le htext (prefix_append _ _) ?_
    rw [String.length_utf8EncodeChar]
    omega
  obtain ⟨more, hmore⟩ := hprefix
  refine ⟨more, ?_, hmore.symm, ?_⟩
  · rintro rfl
    rw [← String.length_utf8EncodeChar, ← hmore, append_nil] at hshort
    exact absurd hshort (lt_irrefl _)
  · have hbytes := h.bytes
    rw [charBytes_cons, ← hmore, append_assoc] at hbytes
    exact append_cancel_left hbytes

theorem At.nil (h : At [] part todo) : part = [] ∧ todo = [] :=
  append_eq_nil_iff.mp h.bytes

section
variable (h : At rest part todo)
include h

/-- A part of a character has its first byte, and continuation bytes after it; one more comes. -/
theorem At.lead (hne : part ≠ []) : ∃ b bs next, part = b :: bs ∧ isContinuationByte b = false ∧
      (∀ b' ∈ bs, isContinuationByte b' = true) ∧ bs.length + 1 < expectedLength b ∧
      todo.head? = some next ∧ isContinuationByte next = true := by
  cases rest with
  | nil => exact absurd h.nil.1 hne
  | cons c rest =>
    obtain ⟨more, hmore, hchar, rfl⟩ := h.cons
    obtain ⟨next, more, rfl⟩ := exists_cons_of_ne_nil hmore
    obtain ⟨b, part, rfl⟩ := exists_cons_of_ne_nil hne
    obtain ⟨b', bs, hbytes, hb, hbs, hlength⟩ := utf8EncodeChar_lead c
    rw [hbytes, cons_append] at hchar
    obtain ⟨rfl, rfl⟩ := List.cons.inj hchar
    refine ⟨b', part, next, rfl, hb, fun b hb => hbs b (by simp [hb]), ?_, rfl, hbs next (by simp)⟩
    rcases hlength with ⟨hnil, -⟩ | ⟨-, hlength⟩
    · simp at hnil
    · rw [hlength, length_append, length_cons]
      omega

/-- A text of characters and a part of one more ends incompletely if there is such a part. -/
theorem At.endsWithIncomplete (cs : List Char) :
    endsWithIncompleteUtf8Sequence (charBytes cs ++ part) = decide (part ≠ []) := by
  by_cases hne : part = []
  · rw [hne, append_nil]
    rcases eq_nil_or_concat cs with rfl | ⟨cs, c, rfl⟩
    · rfl
    · obtain ⟨b, bs, hbytes, hb, hbs, hlength⟩ := utf8EncodeChar_lead c
      rw [concat_eq_append, charBytes_append, charBytes_cons, charBytes_nil, append_nil,
        hbytes, endsWithIncomplete_lead _ hb hbs]
      rcases hlength with ⟨-, hlength, -⟩ | ⟨-, hlength⟩ <;> simp [hlength]
  · obtain ⟨b, bs, -, rfl, hb, hbs, hlength, -⟩ := h.lead hne
    rw [endsWithIncomplete_lead _ hb hbs]
    have hpos : expectedLength b > 0 := by omega
    simp [hlength, hpos]

theorem At.part_of_char : PartOfChar part := by
  cases rest with
  | nil => exact ⟨'a', h.nil.1 ▸ List.nil_prefix, h.nil.1 ▸ 'a'.utf8Size_pos⟩
  | cons c rest =>
    obtain ⟨more, -, hchar, -⟩ := h.cons
    exact ⟨c, hchar ▸ prefix_append _ _, h.short c rfl⟩

theorem At.not_all_continuation (cs : List Char) (hne : charBytes cs ++ part ≠ []) :
    (charBytes cs ++ part).all isContinuationByte = false := by
  cases cs with
  | nil =>
    obtain ⟨b, bs, -, rfl, hb, -⟩ := h.lead hne
    simp [hb]
  | cons c cs =>
    obtain ⟨b, bs, hbytes, hb, -⟩ := utf8EncodeChar_lead c
    simp [hbytes, hb]

theorem At.restart : At rest [] (part ++ todo) :=
  ⟨h.bytes, fun c _ => c.utf8Size_pos⟩

end

/-- A byte over 127 that comes first is the lead byte of a character of more bytes. -/
theorem At.lead_alone {byte : UInt8} (h : At rest [] ([byte] ++ todo)) (hbyte : byte > 127) :
    isUtf8LeadByte byte = true ∧ At rest [byte] todo := by
  cases rest with
  | nil => cases h.nil.2
  | cons c rest =>
    obtain ⟨more, -, hchar, hmore⟩ := h.cons
    obtain ⟨b, bs, hbytes, -, -, hlength⟩ := utf8EncodeChar_lead c
    rw [nil_append, hbytes] at hchar
    obtain ⟨rfl, -⟩ := List.cons.inj (hmore.trans (by rw [← hchar, cons_append]))
    rcases hlength with ⟨-, -, hle⟩ | ⟨hne, hlength⟩
    · exact absurd hbyte (UInt8.not_lt.mpr hle)
    · refine ⟨isUtf8LeadByte_of_expectedLength (by rw [hlength]; omega), h.bytes, ?_⟩
      rintro d hd
      rw [← some.inj hd, ← String.length_utf8EncodeChar, hbytes]
      have := length_pos_of_ne_nil hne
      simp only [length_cons, length_nil]
      omega

/-! ## One chunk -/

section
variable {D : Type} {dec : StringDecoder D}
variable {st : StdinStream D} {part bytes data : List UInt8} {cs rest : List Char}

theorem writeAll_concat (d : D) (chunks : List (List UInt8)) (bytes : List UInt8) :
    dec.writeAll d (chunks ++ [bytes]) =
      ((dec.writeAll d chunks).1 ++ (dec.write (dec.writeAll d chunks).2 bytes).1,
        (dec.write (dec.writeAll d chunks).2 bytes).2) := by
  induction chunks generalizing d with
  | nil => simp [StringDecoder.writeAll]
  | cons chunk chunks ih => simp [StringDecoder.writeAll, ih, append_assoc]

/-- The decoder `d` has been given these bytes. -/
def Given (dec : StringDecoder D) (d : D) (bytes : List UInt8) : Prop :=
  ∃ chunks, d = (dec.writeAll dec.new chunks).2 ∧ chunks.flatten = bytes

/-- The characters that a chunk completes are what the decoder gives for it. -/
theorem Given.write (hdec : dec.Incremental) {d : D} {cs done : List Char}
    {part part' bytes : List UInt8} (h : Given dec d (charBytes cs ++ part))
    (hpart : PartOfChar part) (hpart' : PartOfChar part')
    (hbytes : part ++ bytes = charBytes done ++ part') : (dec.write d bytes).1 = ofChars done ∧
      Given dec (dec.write d bytes).2 (charBytes (cs ++ done) ++ part') := by
  obtain ⟨chunks, rfl, hchunks⟩ := h
  have hflat : (chunks ++ [bytes]).flatten = charBytes (cs ++ done) ++ part' := by
    rw [flatten_append, hchunks, flatten_singleton, append_assoc, hbytes,
      charBytes_append, append_assoc]
  have hout := hdec _ _ _ hpart' hflat
  rw [writeAll_concat, hdec _ _ _ hpart hchunks, ofChars_append] at hout
  exact ⟨append_cancel_left hout, chunks ++ [bytes], by rw [writeAll_concat], hflat⟩

/-- The state after the bytes of `cs` and of `part`: a lead byte that came alone is kept outside of
the decoder. -/
structure Aligned (dec : StringDecoder D) (st : StdinStream D) (cs : List Char)
    (part : List UInt8) : Prop where
  quarantine : st.sgrQuarantine = false
  pending : (st.pendingSingleUtf8LeadByte = none ∧ Given dec st.decoder (charBytes cs ++ part) ∧
      st.decoderHasPendingUtf8 = decide (part ≠ [])) ∨
    ∃ byte, st.pendingSingleUtf8LeadByte = some byte ∧ part = [byte] ∧
      Given dec st.decoder (charBytes cs) ∧ st.decoderHasPendingUtf8 = true

theorem endsWithIncomplete_continuations (hne : bytes ≠ [])
    (hall : bytes.all isContinuationByte = true) : endsWithIncompleteUtf8Sequence bytes = true := by
  have hall := all_eq_true.mp hall
  have hdrop : bytes.rdropWhile isContinuationByte = [] := rdropWhile_eq_nil_iff.mpr hall
  have htake : bytes.rtakeWhile isContinuationByte = bytes := rtakeWhile_eq_self_iff.mpr hall
  simp [endsWithIncompleteUtf8Sequence, hdrop, htake, length_pos_of_ne_nil hne]

/-- The flag tells whether the bytes end in a part of a character; continuation bytes alone end
it just when they complete a character. -/
theorem flag_eq {rest' done : List Char} {part' todo : List UInt8}
    (hat : At rest part (bytes ++ todo)) (hat' : At rest' part' todo) (hne : bytes ≠ [])
    (hbytes : part ++ bytes = charBytes done ++ part') :
    (endsWithIncompleteUtf8Sequence bytes && !(decide (part ≠ []) &&
      decide ((ofChars done).length > 0) && bytes.all isContinuationByte)) =
      decide (part' ≠ []) := by
  cases hall : bytes.all isContinuationByte with
  | false =>
    rw [← endsWithIncomplete_append part hall, hbytes, hat'.endsWithIncomplete]
    simp
  | true =>
    rw [endsWithIncomplete_continuations hne hall]
    by_cases hpart : part = []
    · rw [hpart, nil_append] at hbytes
      have := hat'.not_all_continuation done (hbytes ▸ hne)
      rw [← hbytes, hall] at this
      cases this
    · obtain ⟨b, bs, -, rfl, hb, hbs, -⟩ := hat.lead hpart
      cases done with
      | nil =>
        have hpart' : part' ≠ [] := fun hnil => by simp [hnil] at hbytes
        simp [hpart']
      | cons c done =>
        obtain ⟨b', bs', hchar, -⟩ := utf8EncodeChar_lead c
        rw [charBytes_cons, hchar] at hbytes
        simp only [cons_append, append_assoc] at hbytes
        have htail : (charBytes done ++ part').all isContinuationByte = true := by
          have hrest : (bs' ++ (charBytes done ++ part')).all isContinuationByte = true := by
            rw [← (List.cons.inj hbytes).2, all_append, hall, all_eq_true.mpr hbs]
            rfl
          exact (Bool.and_eq_true_iff.mp (all_append.symm.trans hrest)).2
        have hnil : charBytes done ++ part' = [] := by
          by_contra hne'
          rw [hat'.not_all_continuation done hne'] at htail
          cases htail
        have hpos : 0 < (units c).length := by
          rw [length_units]
          split <;> omega
        have hlong : decide ((ofChars (c :: done)).length > 0) = true := by
          rw [ofChars_cons, length_append, decide_eq_true_eq]
          omega
        rw [hlong, (append_eq_nil_iff.mp hnil).2]
        rfl

theorem aligned_write (hdec : dec.Incremental) {done rest' : List Char} {part' todo : List UInt8}
    {flag : Bool} (hquarantine : st.sgrQuarantine = false)
    (hpending : st.pendingSingleUtf8LeadByte = none)
    (hgiven : Given dec st.decoder (charBytes cs ++ part)) (hat : At rest part (bytes ++ todo))
    (hat' : At rest' part' todo) (hbytes : part ++ bytes = charBytes done ++ part')
    (hflag : flag = decide (part' ≠ [])) :
    Aligned dec { st with
      decoder := (dec.write st.decoder bytes).2
      decoderHasPendingUtf8 := flag } (cs ++ done) part' :=
  ⟨hquarantine, .inl ⟨hpending,
    (hgiven.write hdec hat.part_of_char hat'.part_of_char hbytes).2, hflag⟩⟩

theorem decode_held {joined : StdinStream D} {byte : UInt8}
    (hjoin : st.joinPendingLead data = ([byte], joined, [])) (hbyte : byte > 127)
    (hflag : joined.decoderHasPendingUtf8 = false) (hlead : isUtf8LeadByte byte = true) :
    st.decode dec data = (.held, { joined with
      pendingSingleUtf8LeadByte := some byte
      decoderHasPendingUtf8 := true }.setTimer .leadByte, []) := by
  simp only [decode, hjoin, hflag, hlead, hbyte, decide_true, Bool.not_false, Bool.and_self,
    if_true]

theorem decode_write {joined : StdinStream D}
    (hjoin : st.joinPendingLead data = (bytes, joined, []))
    (hbytes : ∀ byte, bytes = [byte] → byte > 127 → joined.decoderHasPendingUtf8 = true) :
    st.decode dec data = (.decoded (dec.write joined.decoder bytes).1, { joined with
      decoder := (dec.write joined.decoder bytes).2
      decoderHasPendingUtf8 := endsWithIncompleteUtf8Sequence bytes &&
        !((st.decoderHasPendingUtf8 || st.pendingSingleUtf8LeadByte.isSome) &&
          decide ((dec.write joined.decoder bytes).1.length > 0) &&
          bytes.all isContinuationByte) }, []) := by
  simp only [decode, hjoin]
  split
  · rename_i byte
    refine if_neg ?_
    rw [Bool.and_eq_true, decide_eq_true_eq]
    rintro ⟨hbyte, hflag⟩
    rw [hbytes byte rfl hbyte] at hflag
    cases hflag
  · rfl

/-- What a step of decoding gives: the characters that the chunk completes, and no Meta key. -/
theorem Aligned.decode (hdec : dec.Incremental) {todo : List UInt8} (h : Aligned dec st cs part)
    (hat : At rest part (data ++ todo)) (hne : data ≠ []) :
    ∃ done rest' part', rest = done ++ rest' ∧ At rest' part' todo ∧
      Aligned dec (st.decode dec data).2.1 (cs ++ done) part' ∧ (st.decode dec data).2.2 = [] ∧
      (((st.decode dec data).1 = .held ∧ done = []) ∨
        (st.decode dec data).1 = .decoded (ofChars done)) := by
  obtain ⟨done, rest', part', hrest, hbytes, hat'⟩ :=
    exists_at (show (part ++ data) ++ todo = charBytes rest by simpa using hat.bytes)
  rcases h.pending with ⟨hpending, hgiven, hflag⟩ | ⟨byte, hpending, rfl, hgiven, hflag⟩
  · have hjoin : st.joinPendingLead data = (data, st, []) := by
      simp only [joinPendingLead, hpending]
    by_cases hsingle : ∀ byte, data = [byte] → byte > 127 → st.decoderHasPendingUtf8 = true
    · have hout := (hgiven.write hdec hat.part_of_char hat'.part_of_char hbytes).1
      rw [decode_write hjoin hsingle]
      refine ⟨done, rest', part', hrest, hat', aligned_write hdec h.quarantine hpending hgiven hat
        hat' hbytes ?_, rfl, .inr (congrArg _ hout)⟩
      rw [hout, hflag, hpending, Option.isSome_none, Bool.or_false]
      exact flag_eq hat hat' hne hbytes
    · -- a lead byte alone, between two characters
      push Not at hsingle
      obtain ⟨byte, rfl, hbyte, hempty⟩ := hsingle
      obtain rfl : part = [] := by simpa [hflag] using hempty
      obtain ⟨hlead, hat''⟩ := hat.lead_alone hbyte
      rw [decode_held hjoin hbyte (by simpa using hempty) hlead]
      refine ⟨[], rest, [byte], rfl, hat'', ⟨h.quarantine, .inr ⟨byte, rfl, rfl, ?_, rfl⟩⟩, rfl,
        .inl ⟨rfl, rfl⟩⟩
      simpa [setTimer] using hgiven
  · have hhead : data.head?.any isContinuationByte = true := by
      obtain ⟨-, -, next, -, -, -, -, hnext, hcontinues⟩ := hat.lead (cons_ne_nil _ _)
      obtain ⟨first, data, rfl⟩ := exists_cons_of_ne_nil hne
      rw [← some.inj hnext] at hcontinues
      exact hcontinues
    have hjoin : st.joinPendingLead data =
        (byte :: data, { st with pendingSingleUtf8LeadByte := none }, []) := by
      simp only [joinPendingLead, hpending, hhead, if_true]
    have hlong : ∀ b, byte :: data = [b] → b > 127 → st.decoderHasPendingUtf8 = true :=
      fun _ hnil => absurd (List.cons.inj hnil).2 hne
    have hall : (byte :: data).all isContinuationByte = false := by
      obtain ⟨_, _, -, heq, hb, -⟩ := hat.lead (cons_ne_nil _ _)
      rw [all_cons, (List.cons.inj heq).1, hb, Bool.false_and]
    have hgiven : Given dec st.decoder (charBytes cs ++ []) := by rwa [append_nil]
    have hwhole : [] ++ (byte :: data) = charBytes done ++ part' := hbytes
    have hout := (hgiven.write hdec hat.restart.part_of_char hat'.part_of_char hwhole).1
    rw [decode_write hjoin hlong]
    refine ⟨done, rest', part', hrest, hat', aligned_write hdec h.quarantine rfl hgiven hat.restart
      hat' hwhole ?_, rfl, .inr (congrArg _ hout)⟩
    rw [hall, Bool.and_false, Bool.not_false, Bool.and_true, show byte :: data = _ from hwhole]
    exact hat'.endsWithIncomplete done

/-- The text of a chunk that reaches the sequence splitter. -/
def handed (dec : StringDecoder D) (st : StdinStream D) (data : List UInt8) : JsString :=
  match st.clearUnlessQuarantine.decode dec data with
  | (.held, _) => []
  | (.legacy byte, st, _) => (st.intake (legacyMetaSequence byte)).1
  | (.decoded str, st, _) => (st.intake str).1

/-- A byte of the chunk, or one before it, is taken for a Meta key. -/
def TakenForMeta (dec : StringDecoder D) (st : StdinStream D) (data : List UInt8) : Prop :=
  (st.clearUnlessQuarantine.decode dec data).2.2 ≠ [] ∨
    ∃ byte, (st.clearUnlessQuarantine.decode dec data).1 = .legacy byte

/-- The texts that reach the splitter, one for each chunk. -/
def handedOver (dec : StringDecoder D) : StdinStream D → List (List UInt8) → List JsString
  | _, [] => []
  | st, data :: chunks => st.handed dec data :: handedOver dec (st.processBytes dec data).1 chunks

/-- No byte of the chunks is taken for a Meta key. -/
def NoMeta (dec : StringDecoder D) : StdinStream D → List (List UInt8) → Prop
  | _, [] => True
  | st, data :: chunks =>
    ¬ st.TakenForMeta dec data ∧ NoMeta dec (st.processBytes dec data).1 chunks

theorem Aligned.clear (h : Aligned dec st cs part) :
    Aligned dec st.clearUnlessQuarantine cs part := by
  unfold clearUnlessQuarantine
  split
  · exact ⟨h.quarantine, h.pending⟩
  · exact h

theorem Aligned.accept (h : Aligned dec st cs part) (str : JsString) :
    (st.intake str).1 = str ∧ Aligned dec (st.accept str true).1 cs part := by
  have hintake : st.intake str = (str, st) := by simp [intake, h.quarantine]
  refine ⟨by rw [hintake], ?_⟩
  simp only [StdinStream.accept, hintake, h.quarantine, Bool.false_eq_true, false_and, if_false,
    if_true]
  split
  · exact h
  · split
    · exact ⟨rfl, h.pending⟩
    · exact ⟨rfl, h.pending⟩

/-- A chunk hands over the characters that it completes. -/
theorem Aligned.process (hdec : dec.Incremental) {todo : List UInt8} (h : Aligned dec st cs part)
    (hat : At rest part (data ++ todo)) (hne : data ≠ []) :
    ∃ done rest' part', rest = done ++ rest' ∧ At rest' part' todo ∧
      Aligned dec (st.processBytes dec data).1 (cs ++ done) part' ∧
      st.handed dec data = ofChars done ∧ ¬ st.TakenForMeta dec data := by
  obtain ⟨done, rest', part', hrest, hat', haligned, hevents, hout⟩ := h.clear.decode hdec hat hne
  refine ⟨done, rest', part', hrest, hat', ?_⟩
  unfold processBytes handed TakenForMeta
  generalize st.clearUnlessQuarantine.decode dec data = out at haligned hevents hout
  obtain ⟨decoding, next, events⟩ := out
  rcases hout with ⟨rfl, rfl⟩ | rfl
  · exact ⟨haligned, rfl, by simp [show events = [] from hevents]⟩
  · obtain ⟨hintake, hnext⟩ := haligned.accept (ofChars done)
    exact ⟨hnext, hintake, by simp [show events = [] from hevents]⟩

theorem Aligned.run (hdec : dec.Incremental) {chunks : List (List UInt8)}
    (h : Aligned dec st cs part) (hat : At rest part chunks.flatten)
    (hne : ∀ data ∈ chunks, data ≠ []) :
    (handedOver dec st chunks).flatten = ofChars rest ∧ NoMeta dec st chunks := by
  induction chunks generalizing st cs rest part with
  | nil =>
    have hrest : rest = [] := by
      by_contra hcons
      obtain ⟨c, rest, rfl⟩ := exists_cons_of_ne_nil hcons
      obtain ⟨more, hmore, -, hnil⟩ := hat.cons
      exact hmore (append_eq_nil_iff.mp hnil.symm).1
    rw [hrest]
    exact ⟨rfl, trivial⟩
  | cons data chunks ih =>
    obtain ⟨hdata, hchunks⟩ := forall_mem_cons.mp hne
    obtain ⟨done, rest', part', rfl, hat', haligned, hhanded, hmeta⟩ := h.process hdec hat hdata
    obtain ⟨htexts, hnone⟩ := ih haligned hat' hchunks
    refine ⟨?_, hmeta, hnone⟩
    rw [handedOver, flatten_cons, hhanded, htexts, ofChars_append]

theorem replacement_mem (h : 0xfffd ∈ ofChars cs) : Char.ofNat 0xfffd ∈ cs := by
  obtain ⟨c, hc, hunit⟩ := mem_flatMap.mp h
  unfold units at hunit
  split at hunit
  · rename_i hsmall
    have hnat := congrArg UInt16.toNat (mem_singleton.mp hunit)
    rw [UInt16.toNat_ofNat_of_lt' hsmall] at hnat
    have heq : c = Char.ofNat 0xfffd := Char.toNat_inj.mp hnat.symm
    exact heq ▸ hc
  · have hvalid := toNat_lt_or c
    rcases mem_pair.mp hunit with heq | heq <;> have hnat := congrArg UInt16.toNat heq <;>
      simp only [UInt16.toNat_ofNat', UInt16.reduceToNat] at hnat <;> omega

theorem aligned_start (dec : StringDecoder D) : Aligned dec (start dec) [] [] :=
  ⟨rfl, .inl ⟨rfl, ⟨[], rfl, rfl⟩, rfl⟩⟩

end

/-- A decoder that looks at one byte after the other. -/
def writeBytes : List UInt8 → List UInt8 → JsString × List UInt8
  | pending, [] => ([], pending)
  | pending, byte :: bytes =>
    match ByteArray.utf8DecodeChar? (pending ++ [byte]).toByteArray 0 with
    | some c => (units c ++ (writeBytes [] bytes).1, (writeBytes [] bytes).2)
    | none => writeBytes (pending ++ [byte]) bytes

def bytewise : StringDecoder (List UInt8) := ⟨[], writeBytes⟩

theorem writeBytes_append (pending bytes more : List UInt8) : writeBytes pending (bytes ++ more) =
      ((writeBytes pending bytes).1 ++ (writeBytes (writeBytes pending bytes).2 more).1,
        (writeBytes (writeBytes pending bytes).2 more).2) := by
  induction bytes generalizing pending with
  | nil => rfl
  | cons byte bytes ih =>
    rw [cons_append, writeBytes, writeBytes]
    cases ByteArray.utf8DecodeChar? (pending ++ [byte]).toByteArray 0 with
    | none => exact ih _
    | some c => simp only [ih, append_assoc]

theorem writeAll_bytewise (pending : List UInt8) (chunks : List (List UInt8)) :
    bytewise.writeAll pending chunks = writeBytes pending chunks.flatten := by
  induction chunks generalizing pending with
  | nil => rfl
  | cons chunk chunks ih =>
    rw [flatten_cons, writeBytes_append, StringDecoder.writeAll, ih]
    rfl

theorem decode_utf8EncodeChar (c : Char) (bytes : List UInt8) :
    ByteArray.utf8DecodeChar? (String.utf8EncodeChar c ++ bytes).toByteArray 0 = some c := by
  rw [toByteArray_append]
  exact ByteArray.utf8DecodeChar?_utf8EncodeChar_append

theorem decode_part (h : PartOfChar part) :
    ByteArray.utf8DecodeChar? part.toByteArray 0 = none := by
  obtain ⟨c, ⟨more, hmore⟩, hshort⟩ := h
  by_contra hsome
  obtain ⟨d, hd⟩ := Option.ne_none_iff_exists'.mp hsome
  obtain ⟨rest, hrest⟩ := ByteArray.exists_of_utf8DecodeChar?_eq_some hd
  have hpart : part = String.utf8EncodeChar d ++ rest.data.toList := by
    simpa using congrArg (fun bytes : ByteArray => bytes.data.toList) hrest
  have hchar := decode_utf8EncodeChar c []
  rw [append_nil, ← hmore, hpart, append_assoc, decode_utf8EncodeChar] at hchar
  obtain rfl := some.inj hchar
  rw [hpart, length_append, String.length_utf8EncodeChar] at hshort
  omega

theorem writeBytes_char {c : Char} {more : List UInt8}
    (hchar : String.utf8EncodeChar c = part ++ more) (hne : more ≠ []) (rest : List UInt8) :
    writeBytes part (more ++ rest) =
      (units c ++ (writeBytes [] rest).1, (writeBytes [] rest).2) := by
  induction more generalizing part with
  | nil => exact absurd rfl hne
  | cons byte more ih =>
    rw [cons_append, writeBytes]
    by_cases hlast : more = []
    · have hdecode := decode_utf8EncodeChar c []
      rw [append_nil, hchar, hlast] at hdecode
      rw [hdecode, hlast, nil_append]
    · have hchar' : String.utf8EncodeChar c = (part ++ [byte]) ++ more := by simpa using hchar
      have hshort : (part ++ [byte]).length < c.utf8Size := by
        have hpos := length_pos_of_ne_nil hlast
        rw [← String.length_utf8EncodeChar, hchar', @length_append _ (part ++ [byte]) more]
        omega
      have hpartial : PartOfChar (part ++ [byte]) := ⟨c, hchar' ▸ prefix_append _ _, hshort⟩
      rw [decode_part hpartial]
      exact ih hchar' hlast

theorem writeBytes_part {c : Char} {part more : List UInt8}
    (hpart : part ++ more <+: String.utf8EncodeChar c)
    (hshort : (part ++ more).length < c.utf8Size) : writeBytes part more = ([], part ++ more) := by
  induction more generalizing part with
  | nil => rw [append_nil, writeBytes]
  | cons byte more ih =>
    have hsplit : part ++ byte :: more = (part ++ [byte]) ++ more := by simp
    rw [hsplit] at hpart hshort ⊢
    have hpartial : PartOfChar (part ++ [byte]) := by
      refine ⟨c, (prefix_append _ _).trans hpart, ?_⟩
      rw [length_append] at hshort
      omega
    rw [writeBytes, decode_part hpartial]
    exact ih hpart hshort

theorem bytewise_incremental : bytewise.Incremental := by
  rintro chunks cs part ⟨c, hpart, hshort⟩ hflat
  rw [writeAll_bytewise, hflat]
  change (writeBytes [] (charBytes cs ++ part)).1 = ofChars cs
  clear hflat
  induction cs with
  | nil => rw [charBytes_nil, nil_append, @writeBytes_part c [] part hpart hshort, ofChars_nil]
  | cons d cs ih =>
    rw [charBytes_cons, append_assoc, writeBytes_char rfl (by simp), ih, ofChars_cons]

end StdinStream
end GajaeCode
