import ExternalTerm.Proofs.Acceptance
import ExternalTerm.Proofs.Views

/-!
# The text of a term, and the form it came in

A list of integers that came as a string is read as a text in UTF-8, and in every other form as the
list of its characters. Both give the same text for the characters of one byte only.

* `reads_text_iff_of_term` : what bytes that are read to a term are read to as a text;
* `texts_agree_iff_ascii` : the two ways to read a list of bytes as a text agree on ASCII only;
* `readsAsText_iff_of_term` : so two forms of the same term are the same text, unless just one is a
  string and the term is not in ASCII.

The last theorem adds that bytes with a text have a term, so that the text of a message is the one
of its term written again.
-/

namespace ExternalTerm

open Reader

/-! ## Characters of one byte -/

namespace Utf8

theorem encode_injective {s s' : String} (h : encode s = encode s') : s = s' := by
  have hd := congrArg decode h
  rw [decode_encode, decode_encode] at hd
  injection hd

def charOfByte (b : UInt8) : Char := Char.ofNat b.toNat

theorem toNat_charOfByte (b : UInt8) : (charOfByte b).toNat = b.toNat := by
  have hb := b.toNat_lt
  exact toNat_ofNat_valid (.inl (by omega))

theorem encodeChar_charOfByte {b : UInt8} (h : b.toNat < 128) :
    encodeChar (charOfByte b) = [b] := by
  unfold encodeChar
  simp only [toNat_charOfByte]
  rw [if_pos h, UInt8.ofNat_toNat]

theorem length_encodeChar_charOfByte {b : UInt8} (h : ¬ b.toNat < 128) :
    (encodeChar (charOfByte b)).length = 2 := by
  have hb := b.toNat_lt
  unfold encodeChar
  simp only [toNat_charOfByte]
  rw [if_neg h, if_pos (by omega)]
  rfl

theorem length_le_flatMap_charOfByte (bytes : List UInt8) :
    bytes.length ≤ (bytes.flatMap fun b => encodeChar (charOfByte b)).length := by
  induction bytes with
  | nil => exact Nat.le_refl 0
  | cons b bytes ih =>
    rw [List.flatMap_cons, List.length_append, List.length_cons]
    by_cases hb : b.toNat < 128
    · rw [encodeChar_charOfByte hb, List.length_singleton]
      omega
    · rw [length_encodeChar_charOfByte hb]
      omega

/-- The characters whose numbers are the bytes have these bytes in ASCII only. -/
theorem flatMap_charOfByte_eq_iff (bytes : List UInt8) :
    (bytes.flatMap fun b => encodeChar (charOfByte b)) = bytes ↔ ∀ b ∈ bytes, b.toNat < 128 := by
  induction bytes with
  | nil => simp
  | cons b bytes ih =>
    rw [List.flatMap_cons, List.forall_mem_cons]
    by_cases hb : b.toNat < 128
    · rw [encodeChar_charOfByte hb, List.singleton_append, List.cons_inj_right, ih]
      exact (and_iff_right hb).symm
    · refine iff_of_false (fun h => ?_) fun h => hb h.1
      have hlen := congrArg List.length h
      have := length_le_flatMap_charOfByte bytes
      rw [List.length_append, length_encodeChar_charOfByte hb, List.length_cons] at hlen
      omega

theorem encode_charsOfBytes (bytes : List UInt8) :
    encode (String.ofList (bytes.map charOfByte)) =
      bytes.flatMap fun b => encodeChar (charOfByte b) := by
  rw [encode, String.toList_ofList, List.flatMap_map]

end Utf8

/-! ## The two texts of a list of bytes -/

/-- No element is an integer above those of ASCII. -/
def Term.Ascii (t : Term) : Prop :=
  ∀ ts, t.elements? = some ts → ∀ u ∈ ts, ∀ n, u.integer? = some n → n < 128

theorem ofInteger_injective {m n : Int} (h : Term.ofInteger m = .ofInteger n) : m = n := by
  have hint := congrArg Term.integer? h
  rw [integer?_ofInteger, integer?_ofInteger] at hint
  exact Option.some.inj hint

section
variable {bytes : List UInt8}

theorem byteList_injective {bytes' : List UInt8} (h : byteList bytes = byteList bytes') :
    bytes = bytes' := by
  rw [byteList_eq, byteList_eq] at h
  injection h with h
  refine List.map_injective_iff.2 (fun b b' hb => ?_) h
  exact UInt8.toNat_inj.1 (Int.ofNat.inj (ofInteger_injective hb))

theorem ascii_byteList_iff : (byteList bytes).Ascii ↔ ∀ b ∈ bytes, b.toNat < 128 := by
  rw [byteList_eq]
  constructor
  · intro h b hb
    have := h _ rfl _ (List.mem_map_of_mem hb) _ (integer?_ofInteger _)
    omega
  · rintro h _ ⟨⟩ u hu n hn
    obtain ⟨b, hb, rfl⟩ := List.mem_map.1 hu
    rw [integer?_ofInteger] at hn
    cases hn
    have := h b hb
    omega

theorem asText?_byteList :
    (byteList bytes).asText? = some (String.ofList (bytes.map Utf8.charOfByte)) := by
  have hchar (b : UInt8) :
      ((Term.ofInteger b.toNat).integer?.bind char?) = some (Utf8.charOfByte b) := by
    rw [integer?_ofInteger, Option.bind_some, char?_eq_some_iff, Utf8.toNat_charOfByte]
  rw [byteList_eq, Term.asText?, List.mapM_map]
  simp only [Function.comp_def, hchar]
  exact congrArg (Option.map String.ofList) List.mapM_pure

/-- Read as UTF-8 and read character by character, bytes are the same text in ASCII only. -/
theorem texts_agree_iff_ascii :
    (∀ s, byteList bytes = byteList (Utf8.encode s) ↔ (byteList bytes).asText? = some s) ↔
      (byteList bytes).Ascii := by
  rw [ascii_byteList_iff, ← Utf8.flatMap_charOfByte_eq_iff, ← Utf8.encode_charsOfBytes,
    asText?_byteList]
  constructor
  · intro h
    exact (byteList_injective ((h _).2 rfl)).symm
  · intro h s
    constructor
    · intro hs
      rw [Utf8.encode_injective (h.trans (byteList_injective hs))]
    · intro hs
      rw [← Option.some.inj hs, h]

end

namespace Reader

/-! ## From a term to a text -/

section
variable {L : Limits} {d d' : Nat} {data body x : List UInt8} {parts : List (List UInt8)}
  {ts : List Term} {tag : Tag} {t u : Term} {s : String} {c : Char} {chars : List Char}

theorem wire_of_reads_character (h : Reads character L d x c) : Wire x (.ofInteger c.toNat) := by
  have hr : Reads term L d x (.ofInteger c.toNat) :=
    reads_term_of_bigInteger (reads_character_iff.1 h) (Nat.le_refl _)
  exact wire_of_reads hr

theorem reads_character_iff_of_term (h : Reads term L d' x u) :
    Reads character L d x c ↔ u.integer?.bind char? = some c := by
  constructor
  · intro hc
    rw [(wire_of_reads h).unique_term (wire_of_reads_character hc), integer?_ofInteger,
      Option.bind_some, char?_eq_some_iff]
  · intro hc
    obtain ⟨n, hn, hchar⟩ := Option.bind_eq_some_iff.1 hc
    obtain rfl := char?_eq_some_iff.1 hchar
    exact reads_character_iff.2 (reads_bigInteger_of_term h hn)

theorem forall₂_character_iff_of_terms (h : List.Forall₂ (Reads term L d') parts ts) :
    List.Forall₂ (Reads character L d) parts chars ↔
      (ts.mapM fun u : Term => u.integer?.bind char?) = some chars := by
  induction h generalizing chars with
  | nil =>
    rw [List.forall₂_nil_left_iff, List.mapM_nil]
    exact ⟨fun h => h ▸ rfl, fun h => (Option.some.inj h).symm⟩
  | @cons x u parts ts hx _ ih =>
    rw [List.forall₂_cons_left_iff, List.mapM_cons]
    simp only [reads_character_iff_of_term hx, ih]
    constructor
    · rintro ⟨c, cs, hc, hcs, rfl⟩
      rw [hc, Option.bind_eq_bind, Option.bind_some, hcs]
      rfl
    · intro hchars
      obtain ⟨c, hc, hchars⟩ := Option.bind_eq_some_iff.1 hchars
      obtain ⟨cs, hcs, hchars⟩ := Option.bind_eq_some_iff.1 hchars
      cases hchars
      exact ⟨c, cs, hc, hcs, rfl⟩

theorem reads_text_tag_iff : Reads text L d (tag.byte :: body) s ↔ TextForm L d tag body s := by
  rw [reads_text_iff]
  constructor
  · rintro ⟨tag', body', hd, form⟩
    injection hd with htag hbody
    rw [Tag.byte_injective htag, hbody]
    exact form
  · exact fun form => ⟨tag, body, rfl, form⟩

/-- What has no tag of a text is no text. -/
theorem textForm_iff_of_no_family (h : tag.textFamily? = none) (ht : t.asText? = none) :
    TextForm L d tag body s ↔ t.asText? = some s := by
  rw [← reads_textTagged_iff, textTagged_of_no_family h, ht]
  exact iff_of_false not_reads_throw (Option.some_ne_none s).symm

theorem textForm_run_iff {w : Nat} {bytes : List UInt8} (hw : tag.textWidth? = some w)
    (hn : bytes.length < 256 ^ w) (hl : bytes.length ≤ L.maxPayload) :
    TextForm L d tag (Digits.bigEndian w bytes.length ++ bytes) s ↔ bytes = Utf8.encode s := by
  rw [← reads_textTagged_iff, textTagged_of_width hw, reads_sized_iff]
  constructor
  · rintro ⟨hs, -, hb⟩
    exact (bigEndian_append_inj hn hs hb).2
  · rintro rfl
    exact ⟨hn, hl, rfl⟩

theorem textForm_list_iff (hn : ts.length < 256 ^ 4) (hl : ts.length ≤ L.maxElements)
    (h : List.Forall₂ (Reads term L (d + 1)) parts ts) :
    TextForm L d .list (Digits.bigEndian 4 ts.length ++ (parts.flatten ++ [Tag.nil.byte])) s ↔
      (Term.list ts).asText? = some s := by
  have hwires : List.Forall₂ Wire parts ts := h.imp fun _ _ => wire_of_reads
  rw [Term.asText?, Option.map_eq_some_iff]
  simp only [← forall₂_character_iff_of_terms (d := d) h]
  constructor
  · intro form
    generalize hb : Digits.bigEndian 4 ts.length ++ (parts.flatten ++ [Tag.nil.byte]) = body at form
    cases form with
    | sized hw => cases hw
    | @characters chars _ hn' hl' hchars =>
      obtain ⟨hlen, hrest⟩ := bigEndian_append_inj hn hn' hb
      obtain ⟨-, parts', rfl, hparts⟩ := (reads_repeated_iff composed.character).1 hchars
      have hwires' : List.Forall₂ Wire parts' (chars.map fun c => .ofInteger c.toNat) :=
        List.forall₂_map_right_iff.2 (hparts.imp fun _ _ => wire_of_reads_character)
      obtain rfl := parts_unique hwires hwires' (by rw [List.length_map, hlen]) hrest
      exact ⟨chars, hparts, rfl⟩
  · rintro ⟨chars, hchars, rfl⟩
    have hlen : ts.length = chars.length := h.length_eq.symm.trans hchars.length_eq
    rw [hlen] at hn hl ⊢
    exact .characters hn hl ((reads_repeated_iff composed.character).2 ⟨rfl, parts, rfl, hchars⟩)

/-- What bytes that are read to a term are read to as a text: those of a string in UTF-8, and all
others as the term says. -/
theorem reads_text_iff_of_term (h : Reads term L d data t) :
    Reads text L d data s ↔
      if data.head? = some Tag.string.byte then t = byteList (Utf8.encode s)
      else t.asText? = some s := by
  obtain ⟨tag, body, rfl, form⟩ := reads_term_form_iff.1 h
  rw [reads_text_tag_iff, List.head?_cons]
  by_cases htag : tag = .string
  · subst htag
    rw [if_pos rfl]
    cases form with
    | string hlt hl =>
      rw [textForm_run_iff rfl hlt hl]
      exact ⟨fun hb => hb ▸ rfl, byteList_injective⟩
    | integer hform => cases hform
    | atom hfamily => cases hfamily
    | tuple hw => cases hw
  · rw [if_neg fun h => htag (Tag.byte_injective (Option.some.inj h))]
    cases form with
    | @integer _ _ n hform =>
      have hnone : (Term.ofInteger n).asText? = none := by
        unfold Term.ofInteger
        split <;> rfl
      cases hform <;> exact textForm_iff_of_no_family rfl hnone
    | @atom _ w name _ hw hs hl =>
      rw [Utf8.size, textForm_run_iff hw hs hl, Term.asText?, Option.some.injEq]
      exact ⟨Utf8.encode_injective, congrArg Utf8.encode⟩
    | @text value hs hl =>
      rw [Utf8.size, textForm_run_iff rfl hs hl, Term.asText?, Option.some.injEq]
      exact ⟨Utf8.encode_injective, congrArg Utf8.encode⟩
    | string => exact absurd rfl htag
    | nil =>
      constructor
      · intro form
        generalize hb : ([] : List UInt8) = body at form
        cases form with
        | sized hw => cases hw
        | nil => rfl
      · rintro ⟨⟩
        exact .nil
    | tuple hw =>
      have hfamily : tag.textFamily? = none := by cases tag <;> first | cases hw; done | rfl
      exact textForm_iff_of_no_family hfamily rfl
    | list hn hl _ helements => exact textForm_list_iff hn hl helements

/-! ## Without limits -/

/-- Read without limits, the bytes begin with this text. -/
def ReadsAsText (b : List UInt8) (s : String) : Prop := ∃ r, text (fresh .unbounded b) = .ok s r

theorem composed_text : Composed text := composed.byte.bind composed.textTagged

theorem deeper_unbounded : Limits.unbounded.deeper = .unbounded := by
  simp [Limits.deeper, Limits.unbounded]

/-- Bytes that are read to a text are read to a term. -/
theorem exists_term_of_text (h : Reads text .unbounded 0 data s) :
    ∃ t, Reads term .unbounded 0 data t := by
  obtain ⟨tag, body, rfl, form⟩ := reads_text_iff.1 h
  obtain ⟨t, hform, -⟩ := form.exists_term (by rw [deeper_unbounded]; decide)
  rw [deeper_unbounded] at hform
  exact ⟨t, reads_term_form_iff.2 ⟨tag, body, rfl, hform⟩⟩

section
variable {b b₁ b₂ : List UInt8} {r r₁ r₂ : Reader}

theorem readsAsText_iff_of_term (h : term (fresh .unbounded b) = .ok t r) :
    ReadsAsText b s ↔
      if b.head? = some Tag.string.byte then t = byteList (Utf8.encode s)
      else t.asText? = some s := by
  obtain ⟨data, rest, rfl, hr, rfl⟩ := composed_term.ok_iff.1 h
  have hw : Wire data t := wire_of_reads hr
  rw [List.head?_append_of_ne_nil _ (List.ne_nil_of_length_pos hw.length_pos),
    ← reads_text_iff_of_term hr]
  constructor
  · rintro ⟨r, htext⟩
    obtain ⟨data', rest', hb, hs, -⟩ := composed_text.ok_iff.1 htext
    obtain ⟨u, hu⟩ := exists_term_of_text hs
    rwa [(hw.unique (wire_of_reads hu) hb).1]
  · intro hs
    exact ⟨_, composed_text.ok_iff.2 ⟨data, rest, rfl, hs, rfl⟩⟩

theorem exists_byteList (h : term (fresh .unbounded b) = .ok t r)
    (hb : b.head? = some Tag.string.byte) : ∃ bytes, t = byteList bytes := by
  obtain ⟨data, rest, rfl, hr, rfl⟩ := composed_term.ok_iff.1 h
  obtain ⟨tag, body, rfl, form⟩ := reads_term_form_iff.1 hr
  obtain rfl := Tag.byte_injective (Option.some.inj hb)
  cases form with
  | string => exact ⟨_, rfl⟩
  | integer hform => cases hform
  | atom hfamily => cases hfamily
  | tuple hw => cases hw

theorem readsAsText_iff_of_string (h₁ : term (fresh .unbounded b₁) = .ok t r₁)
    (h₂ : term (fresh .unbounded b₂) = .ok t r₂) (hb₁ : b₁.head? = some Tag.string.byte)
    (hb₂ : b₂.head? ≠ some Tag.string.byte) :
    (∀ s, ReadsAsText b₁ s ↔ ReadsAsText b₂ s) ↔ t.Ascii := by
  obtain ⟨bytes, rfl⟩ := exists_byteList h₁ hb₁
  simp only [readsAsText_iff_of_term h₁, readsAsText_iff_of_term h₂, if_pos hb₁, if_neg hb₂]
  exact texts_agree_iff_ascii

/-- Two forms of a term are the same text, or neither is a text, unless just one of them is a string
and the term is not in ASCII. -/
theorem readsAsText_iff_of_forms (h₁ : term (fresh .unbounded b₁) = .ok t r₁)
    (h₂ : term (fresh .unbounded b₂) = .ok t r₂) :
    (∀ s, ReadsAsText b₁ s ↔ ReadsAsText b₂ s) ↔
      (b₁.head? = some Tag.string.byte ↔ b₂.head? = some Tag.string.byte) ∨ t.Ascii := by
  by_cases hsame : b₁.head? = some Tag.string.byte ↔ b₂.head? = some Tag.string.byte
  · refine iff_of_true (fun s => ?_) (.inl hsame)
    rw [readsAsText_iff_of_term h₁, readsAsText_iff_of_term h₂]
    simp only [hsame]
  rw [or_iff_right hsame]
  by_cases hb₁ : b₁.head? = some Tag.string.byte
  · exact readsAsText_iff_of_string h₁ h₂ hb₁ fun hb₂ => hsame (iff_of_true hb₁ hb₂)
  · have hb₂ : b₂.head? = some Tag.string.byte := by
      by_contra hb₂
      exact hsame (iff_of_false hb₁ hb₂)
    exact (forall_congr' fun s => iff_comm).trans (readsAsText_iff_of_string h₂ h₁ hb₂ hb₁)

end

end

end Reader

/-! ## Messages -/

section
variable {L : Limits} {b : List UInt8} {s : String} {shape : Shape} {t : Term} {v : Decoded}

/-- Decoded without limits against the shape, the bytes begin with a message of this value. -/
def Decodes (shape : Shape) (b : List UInt8) (v : Decoded) : Prop :=
  ∃ source, decode (.ofBytes b) shape .unbounded = (.ok v, source)

theorem decodes_iff (hs : shape.check = .ok ()) :
    Decodes shape b v ↔
      ∃ body r, b = versionMagic :: body ∧ shaped shape (fresh .unbounded body) = .ok v r := by
  unfold Decodes
  simp only [decode_ok_iff hs, (composed_message shape).ok_iff, (composed_shaped shape).ok_iff,
    reads_message_iff]
  constructor
  · rintro ⟨_, _, ⟨_, rest, rfl, ⟨data, rfl, hr⟩, rfl⟩, rfl⟩
    exact ⟨data ++ rest, _, rfl, data, rest, rfl, hr, rfl⟩
  · rintro ⟨_, _, rfl, data, rest, rfl, hr, rfl⟩
    exact ⟨_, _, ⟨versionMagic :: data, rest, rfl, ⟨data, rfl, hr⟩, rfl⟩, rfl⟩

theorem decodes_text_iff :
    Decodes .text b (.text s) ↔ ∃ body, b = versionMagic :: body ∧ ReadsAsText body s := by
  rw [decodes_iff rfl]
  constructor
  · rintro ⟨body, r, rfl, h⟩
    obtain ⟨s', r', hs, hr⟩ := bind_eq_ok_iff.1 h
    cases hr
    exact ⟨body, rfl, r, hs⟩
  · rintro ⟨body, rfl, r, hs⟩
    exact ⟨body, r, rfl, bind_eq_ok_iff.2 ⟨s, r, hs, rfl⟩⟩

theorem decodes_any_iff :
    Decodes .any b (.term t) ↔
      ∃ body r, b = versionMagic :: body ∧ term (fresh .unbounded body) = .ok t r := by
  rw [decodes_iff rfl]
  constructor
  · rintro ⟨body, r, rfl, h⟩
    obtain ⟨u, r', hu, hr⟩ := bind_eq_ok_iff.1 h
    cases hr
    exact ⟨body, r, rfl, hu⟩
  · rintro ⟨body, r, rfl, hu⟩
    exact ⟨body, r, rfl, bind_eq_ok_iff.2 ⟨t, r, hu, rfl⟩⟩

/-- Nothing is written as a string. -/
theorem head?_encoded_ne (h : t.Encodable) : t.encoded.head? ≠ some Tag.string.byte := by
  obtain ⟨tag, body, hb, form⟩ := exists_writtenForm h
  rw [hb, List.head?_cons]
  intro htag
  obtain rfl := Tag.byte_injective (Option.some.inj htag)
  cases form with
  | integer _ hform => cases hform
  | atom hfamily => cases hfamily
  | tuple hw => cases hw

theorem Decodes.unique {v' : Decoded} (h : Decodes shape b v) (h' : Decodes shape b v') :
    v = v' := by
  obtain ⟨source, h⟩ := h
  obtain ⟨source', h'⟩ := h'
  cases h.symm.trans h'
  rfl

theorem decodes_text_cons_iff :
    Decodes .text (versionMagic :: b) (.text s) ↔ ReadsAsText b s := by
  rw [decodes_text_iff]
  simp only [List.cons_inj_right, exists_eq_left']

/-- The term of a message is derived from bytes of the message. -/
theorem Decodes.exists_wire (h : Decodes .any b (.term t)) :
    ∃ data, Wire data t ∧ data.length ≤ b.length := by
  obtain ⟨_, r, rfl, hr⟩ := decodes_any_iff.1 h
  obtain ⟨data, rest, rfl, hdata, -⟩ := composed_term.ok_iff.1 hr
  refine ⟨data, wire_of_reads hdata, ?_⟩
  rw [List.length_cons, List.length_append]
  omega

/-- The message written for the term of a message has the same text, unless the message came as a
string that is not in ASCII. -/
theorem decodes_text_iff_of_term (hb : b.length ≤ Limits.lengthBound)
    (ht : Decodes .any b (.term t)) :
    (∀ s, Decodes .text b (.text s) ↔ Decodes .text (versionMagic :: t.encoded) (.text s)) ↔
      ∀ rest, b = versionMagic :: Tag.string.byte :: rest → t.Ascii := by
  obtain ⟨body, r, rfl, h⟩ := decodes_any_iff.1 ht
  obtain ⟨data, hw, hlen⟩ := ht.exists_wire
  have hencoded := head?_encoded_ne hw.encodable
  simp only [decodes_text_cons_iff]
  rw [readsAsText_iff_of_forms h (hw.term_encoded (hw.within_unbounded (hlen.trans hb))),
    iff_false_right hencoded]
  constructor
  · rintro (hhead | hascii) rest hb
    · injection hb with _ hb
      exact absurd (hb ▸ rfl) hhead
    · exact hascii
  · intro hall
    by_cases hhead : body.head? = some Tag.string.byte
    · obtain ⟨rest, hrest⟩ := List.head?_eq_some_iff.1 hhead
      exact .inr (hall rest (by rw [hrest]))
    · exact .inl hhead

/-- Decoding a message as a text is decoding its term, and then, as a text, the message written for
that term. -/
theorem decodes_text_iff_of_rewritten (hb : b.length ≤ Limits.lengthBound) :
    (∀ s, Decodes .text b (.text s) ↔ ∃ t b', Decodes .any b (.term t) ∧ t.written = .ok b' ∧
        Decodes .text (versionMagic :: b') (.text s)) ↔
      ∀ rest t, b = versionMagic :: Tag.string.byte :: rest → Decodes .any b (.term t) →
        t.Ascii := by
  by_cases hterm : ∃ t, Decodes .any b (.term t)
  · obtain ⟨t, ht⟩ := hterm
    obtain ⟨data, hw, -⟩ := ht.exists_wire
    have hwritten : t.written = .ok t.encoded := written_eq_ok_iff.2 ⟨hw.encodable, rfl⟩
    have hrewritten (s : String) :
        (∃ u b', Decodes .any b (.term u) ∧ u.written = .ok b' ∧
          Decodes .text (versionMagic :: b') (.text s)) ↔
        Decodes .text (versionMagic :: t.encoded) (.text s) := by
      constructor
      · rintro ⟨u, b', hu, hb', hs⟩
        cases hu.unique ht
        cases hwritten.symm.trans hb'
        exact hs
      · exact fun hs => ⟨t, _, ht, hwritten, hs⟩
    simp only [hrewritten]
    rw [decodes_text_iff_of_term hb ht]
    constructor
    · intro hall rest u hb hu
      cases hu.unique ht
      exact hall rest hb
    · exact fun hall rest hb => hall rest t hb ht
  · have hnotext (s : String) : ¬ Decodes .text b (.text s) := by
      intro hs
      obtain ⟨body, rfl, r, hs⟩ := decodes_text_iff.1 hs
      obtain ⟨data, rest, rfl, hs, -⟩ := composed_text.ok_iff.1 hs
      obtain ⟨t, ht⟩ := exists_term_of_text hs
      exact hterm ⟨t, decodes_any_iff.2
        ⟨_, _, rfl, composed_term.ok_iff.2 ⟨data, rest, rfl, ht, rfl⟩⟩⟩
    refine iff_of_true (fun s => ?_) fun rest t _ ht => absurd ⟨t, ht⟩ hterm
    exact iff_of_false (hnotext s) fun ⟨t, _, ht, _⟩ => hterm ⟨t, ht⟩

theorem term_of_wire (hb : b.length ≤ Limits.lengthBound) (hw : Wire b t) :
    term (fresh .unbounded b) = .ok t (memory .unbounded 0 b.length []) :=
  composed_term.ok_iff.2
    ⟨b, [], (List.append_nil b).symm, (reads_term_unbounded_iff hb).2 hw, rfl⟩

theorem wire_byte (k : UInt8) : Wire [Tag.smallInteger.byte, k] (.int (Int32.ofNat k.toNat)) := by
  have h := Wire.integer (.small k)
  rwa [ofInteger_byte] at h

/-- Two forms of the same term are the same text, or neither is a text, exactly when both or neither
are strings, or the term is in ASCII: a string is read in UTF-8, any other list by the numbers of
its characters. So a message is the same text as the one that is written for its term, unless it
came as a string that is not in ASCII. The bound holds of all bytes in a machine. -/
theorem text_iff_of_term :
    (∀ b₁ b₂ t r₁ r₂, term (fresh .unbounded b₁) = .ok t r₁ →
      term (fresh .unbounded b₂) = .ok t r₂ →
      ((∀ s, (∃ r, text (fresh .unbounded b₁) = .ok s r) ↔
          ∃ r, text (fresh .unbounded b₂) = .ok s r) ↔
        (b₁.head? = some Tag.string.byte ↔ b₂.head? = some Tag.string.byte) ∨ t.Ascii)) ∧
    (∀ b, b.length ≤ Limits.lengthBound →
      ((∀ s, Decodes .text b (.text s) ↔ ∃ t b', Decodes .any b (.term t) ∧
          t.written = .ok b' ∧ Decodes .text (versionMagic :: b') (.text s)) ↔
        ∀ rest t, b = versionMagic :: Tag.string.byte :: rest → Decodes .any b (.term t) →
          t.Ascii)) :=
  ⟨fun _ _ _ _ _ h₁ h₂ => readsAsText_iff_of_forms h₁ h₂, fun _ => decodes_text_iff_of_rewritten⟩

/-- The letters of a string, and the same as a list of integers of other sizes. -/
theorem text_iff_of_term_letters :
    term (fresh .unbounded [107, 0, 2, 104, 105]) =
      .ok (.list [.int 104, .int 105]) (memory .unbounded 0 5 []) ∧
    term (fresh .unbounded [108, 0, 0, 0, 2, 97, 104, 98, 0, 0, 0, 105, 106]) =
      .ok (.list [.int 104, .int 105]) (memory .unbounded 0 13 []) ∧
    ∀ s, (∃ r, text (fresh .unbounded [107, 0, 2, 104, 105]) = .ok s r) ↔
      ∃ r, text (fresh .unbounded [108, 0, 0, 0, 2, 97, 104, 98, 0, 0, 0, 105, 106]) = .ok s r := by
  have hw₁ : Wire [107, 0, 2, 104, 105] (.list [.int 104, .int 105]) :=
    @Wire.string [104, 105] (by decide)
  have hword : Wire [98, 0, 0, 0, 105] (.int 105) := by
    have h := Wire.integer (.word 105)
    rwa [Term.ofInteger_of_fits (Width.fits_toInt32 105), Int32.ofInt_toInt] at h
  have helements : List.Forall₂ Wire [[97, 104], [98, 0, 0, 0, 105]] [.int 104, .int 105] :=
    .cons (wire_byte 104) (.cons hword .nil)
  have hw₂ : Wire [108, 0, 0, 0, 2, 97, 104, 98, 0, 0, 0, 105, 106]
      (.list [.int 104, .int 105]) := Wire.list (by decide) helements
  have hascii : (byteList [104, 105]).Ascii := ascii_byteList_iff.2 (by simp)
  have h₁ := term_of_wire (by decide) hw₁
  have h₂ := term_of_wire (by decide) hw₂
  exact ⟨h₁, h₂, (text_iff_of_term.1 _ _ _ _ _ h₁ h₂).2 (.inr hascii)⟩

/-- The bytes of one letter are this letter as a string, and two others as a list. -/
theorem not_text_iff_of_term : ¬ ∀ b₁ b₂ t r₁ r₂, term (fresh .unbounded b₁) = .ok t r₁ →
    term (fresh .unbounded b₂) = .ok t r₂ → ∀ s, (∃ r, text (fresh .unbounded b₁) = .ok s r) ↔
      ∃ r, text (fresh .unbounded b₂) = .ok s r := by
  intro hall
  have hw₁ : Wire [107, 0, 2, 195, 169] (.list [.int 195, .int 169]) :=
    @Wire.string [195, 169] (by decide)
  have helements : List.Forall₂ Wire [[97, 195], [97, 169]] [.int 195, .int 169] :=
    .cons (wire_byte 195) (.cons (wire_byte 169) .nil)
  have hw₂ : Wire [108, 0, 0, 0, 2, 97, 195, 97, 169, 106] (.list [.int 195, .int 169]) :=
    Wire.list (by decide) helements
  have htext₁ : text (fresh .unbounded [107, 0, 2, 195, 169]) =
      .ok "é" (memory .unbounded 0 5 []) := by decide +kernel
  have htext₂ : text (fresh .unbounded [108, 0, 0, 0, 2, 97, 195, 97, 169, 106]) =
      .ok "Ã©" (memory .unbounded 0 10 []) := by decide +kernel
  obtain ⟨r, h⟩ := (hall _ _ _ _ _ (term_of_wire (by decide) hw₁) (term_of_wire (by decide) hw₂)
    "é").1 ⟨_, htext₁⟩
  have hs := h.symm.trans htext₂
  injection hs with hs
  exact absurd hs (by decide)

end

end ExternalTerm
