import ExternalTerm.Proofs.Characters
import ExternalTerm.Proofs.Shaped

/-!
# The forms of a text, and their families

* `TextBytes` : the bytes of a text in one of its forms;
* `reads_text_iff_textBytes` : without limits these are all bytes that are read as the text;
* `SameText` : what a text and a tagged text are read to on the same reader, that is the same, but
  for the family of the tag and for what was expected instead of another tag;
* `text_and_family` : both, the first for all texts, the second for all readers.
-/

namespace ExternalTerm

open Reader

/-- The bytes of a text: the UTF-8 bytes after the tag of an atom, a string or a binary and a length
that the tag has room for; the list of its characters, each of them in any form of an integer; or, if
it is empty, the empty list. -/
inductive TextBytes : List UInt8 → String → Prop
  | sized {tag : Tag} {w : Nat} {s : String} (hw : tag.textWidth? = some w)
      (hs : s.utf8ByteSize < 256 ^ w) :
      TextBytes (tag.byte :: (Digits.bigEndian w s.utf8ByteSize ++ s.toUTF8.data.toList)) s
  | characters {ns : List Numeral} {s : String} (hlen : ns.length < 256 ^ 4)
      (hns : ns.map Numeral.value = s.toList.map fun c => (c.toNat : Int)) :
      TextBytes (Numeral.listBytes ns) s
  | nil : TextBytes [Tag.nil.byte] ""

/-- What reading a text and reading a tagged text end with on the same reader. -/
inductive SameText (r : Reader) :
    EStateM.Result DecodeError Reader Decoded → EStateM.Result DecodeError Reader Decoded → Prop
  | ok {b : UInt8} {r₁ r' : Reader} {t : TaggedText} (hb : byte r = .ok b r₁)
      (hf : t.family = .atom ↔ b = 119 ∨ b = 115 ∨ b = 118 ∨ b = 100) :
      SameText r (.ok (.text t.value) r') (.ok (.tagged t) r')
  | error {e : DecodeError} {r' : Reader} : SameText r (.error e r') (.error e r')
  | unexpected {b : UInt8} {r' : Reader} (hb : byte r = .ok b r') :
      SameText r (.error (.unexpectedTag b .text) r') (.error (.unexpectedTag b .taggedText) r')

namespace Reader

section
variable {d : Nat} {x : List UInt8} {s : String} {b : UInt8} {family : TextFamily}

theorem textBytes_of_form {tag : Tag} {body : List UInt8} (h : TextForm .unbounded d tag body s) :
    TextBytes (tag.byte :: body) s := by
  cases h with
  | sized hw hs _ =>
    rw [Utf8.size_eq_utf8ByteSize] at hs ⊢
    rw [Utf8.encode_eq_toUTF8]
    exact .sized hw hs
  | @characters chars body hlen _ h =>
    obtain ⟨ns, -, rfl, hns⟩ := Numeral.reads_characters_iff.1 h
    rw [← Numeral.length_of_values hns] at hlen ⊢
    exact .characters hlen (by rw [hns, String.toList_ofList])
  | nil => exact .nil

theorem reads_text_of_textBytes (h : TextBytes x s) : Reads text .unbounded d x s := by
  cases h with
  | @sized tag w _ hw hs =>
    have hpow : 256 ^ w ≤ 256 ^ 4 := by cases tag <;> cases hw <;> decide
    have hl : s.utf8ByteSize ≤ Limits.unbounded.maxPayload :=
      Nat.le_trans (Nat.le_of_lt (Nat.lt_of_lt_of_le hs hpow)) (by decide)
    rw [← Utf8.size_eq_utf8ByteSize] at hs hl ⊢
    rw [← Utf8.encode_eq_toUTF8]
    exact reads_text_iff.2 ⟨tag, _, rfl, .sized hw hs hl⟩
  | @characters ns _ hlen hns =>
    have hread := Numeral.reads_text (d := d) (fun n _ => n.admitted_unbounded) hlen
      (Nat.le_trans (Nat.le_of_lt hlen) (by decide)) hns
    rwa [String.ofList_toList] at hread
  | nil => exact reads_text_iff.2 ⟨.nil, [], rfl, .nil⟩

theorem reads_text_iff_textBytes : Reads text .unbounded d x s ↔ TextBytes x s := by
  refine ⟨fun h => ?_, reads_text_of_textBytes⟩
  obtain ⟨tag, body, rfl, form⟩ := reads_text_iff.1 h
  exact textBytes_of_form form

/-! ## Families -/

theorem eq_atom_iff_of_family (h : (Tag.ofByte? b).bind Tag.textFamily? = some family) :
    family = .atom ↔ b = 119 ∨ b = 115 ∨ b = 118 ∨ b = 100 := by
  obtain ⟨tag, htag, hf⟩ := Option.bind_eq_some_iff.1 h
  obtain rfl := Tag.ofByte?_eq_some_iff.1 htag
  cases tag <;> cases hf <;> decide

theorem textTagged_of_family_none (h : (Tag.ofByte? b).bind Tag.textFamily? = none) :
    textTagged b = throw (.unexpectedTag b .text) := by
  cases htag : Tag.ofByte? b with
  | none => exact textTagged_of_no_tag htag
  | some tag =>
    obtain rfl := Tag.ofByte?_eq_some_iff.1 htag
    rw [htag] at h
    exact textTagged_of_no_family h

theorem sameText (r : Reader) : SameText r (shaped .text r) (shaped .taggedText r) := by
  have htext : shaped .text =
      byte >>= fun b => textTagged b >>= fun s => pure (.text s) := by
    rw [shaped, text, bind_assoc]
  have htagged : shaped .taggedText =
      byte >>= fun b => taggedTextTagged b >>= fun t => pure (.tagged t) := by
    rw [shaped]
  rw [htext, htagged]
  cases hb : byte r with
  | error e r' =>
    rw [bind_error hb, bind_error hb]
    exact .error
  | ok b r₁ =>
    rw [bind_ok hb, bind_ok hb, taggedTextTagged]
    cases hf : (Tag.ofByte? b).bind Tag.textFamily? with
    | none =>
      rw [textTagged_of_family_none hf]
      exact .unexpected hb
    | some family =>
      dsimp only
      cases ht : textTagged b r₁ with
      | error e r' =>
        rw [bind_error ht, bind_assoc, bind_error ht]
        exact .error
      | ok s r' =>
        rw [bind_ok ht, bind_assoc, bind_ok ht]
        exact .ok (t := ⟨s, family⟩) hb (eq_atom_iff_of_family hf)

end

end Reader

/-- Without limits, the bytes of a text in any of its forms are read to their end as this text, and
no others are. Whatever the source and the limits are, a tagged text is read where a text is, to the
same text from the same bytes, of the family of atoms just if the tag is one of an atom, and it fails
where a text does, in the same way. -/
theorem text_and_family :
    (∀ d x s, Reads text .unbounded d x s ↔ TextBytes x s) ∧
      ∀ r : Reader, SameText r (shaped .text r) (shaped .taggedText r) :=
  ⟨fun _ _ _ => reads_text_iff_textBytes, sameText⟩

example : shaped .taggedText (fresh {} [119, 2, 195, 169, 97]) =
    .ok (.tagged ⟨"é", .atom⟩) (memory {} 0 4 [97]) := by decide +kernel

end ExternalTerm
