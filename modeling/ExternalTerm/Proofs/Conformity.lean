import ExternalTerm.Proofs.Message

/-!
# What is read conforms to the shape

* `Shape.Conforms` : a value has the form of a shape, and its integers fit their widths;
* `conforms_of_reads` : all that is read against a shape conforms to it;
* `fits_or_byte_of_binds` : so an integer that is read for an integer of a shape fits its width,
  which is not 8 bits, or else it is a byte of a string;
* `reads_list_w8_iff` : a list of integers of 8 bits is read from a string, although such an integer
  is read nowhere else (`not_fits_of_binds`);
* `fits_of_decode` : `Shape.check` refuses such a list, so that no message gives one.
-/

namespace ExternalTerm

open Reader

def Decoded.byteIntegers (bytes : List UInt8) : List Decoded :=
  bytes.map fun b => .integer (Int64.ofNat b.toNat)

namespace Shape

/-! ## Values of a shape -/

mutual

/-- The value has the form that the shape asks for, and its integers fit the widths that it asks
for. No integer is one of 8 bits, but a list of such integers may be made of bytes. -/
def Conforms : Shape → Decoded → Prop
  | integer w, .integer n => w ≠ .w8 ∧ w.Fits n.toInt
  | bigInteger, .bigInteger _ => True
  | text, .text _ => True
  | taggedText, .tagged _ => True
  | record fields, .record values => ConformsFields fields values
  | list element, .list vs => (∀ v ∈ vs, element.Conforms v) ∨
      element = .integer .w8 ∧ ∃ bytes, vs = Decoded.byteIntegers bytes
  | any, .term _ => True
  | _, _ => False

def ConformsFields : List (Field Shape) → List (Field Decoded) → Prop
  | [], [] => True
  | ⟨name, s⟩ :: fields, ⟨name', v⟩ :: values =>
    name = name' ∧ s.Conforms v ∧ ConformsFields fields values
  | _, _ => False

end

/-- A value of the shape `s` has this value of the shape `part` inside, fields and elements being
matched by position. -/
inductive Binds : Shape → Decoded → Shape → Decoded → Prop
  | self (s : Shape) (v : Decoded) : Binds s v s v
  | field {fields : List (Field Shape)} {values : List (Field Decoded)} {f : Field Shape}
      {v : Field Decoded} {part : Shape} {u : Decoded} (hf : (f, v) ∈ fields.zip values)
      (h : Binds f.value v.value part u) : Binds (.record fields) (.record values) part u
  | element {element : Shape} {vs : List Decoded} {v : Decoded} {part : Shape} {u : Decoded}
      (hv : v ∈ vs) (h : Binds element v part u) : Binds (.list element) (.list vs) part u

theorem conforms_of_mem_zip {fields : List (Field Shape)} {values : List (Field Decoded)}
    (h : ConformsFields fields values) {f : Field Shape} {v : Field Decoded}
    (hf : (f, v) ∈ fields.zip values) : f.value.Conforms v.value := by
  induction fields generalizing values with
  | nil => cases hf
  | cons g fields ih =>
    cases values with
    | nil => cases hf
    | cons u values =>
      obtain ⟨-, hu, hfields⟩ := h
      rw [List.zip_cons_cons, List.mem_cons] at hf
      rcases hf with heq | hf
      · cases heq
        exact hu
      · exact ih hfields hf

/-- A part of a shape that is not refused is not refused. -/
theorem Binds.check {s part : Shape} {v u : Decoded} (h : s.Binds v part u)
    (hs : s.check = .ok ()) : part.check = .ok () := by
  induction h with
  | self => exact hs
  | field hf _ ih => exact ih (check_of_mem hs (List.of_mem_zip hf).1)
  | element _ _ ih => exact ih hs

/-- An integer inside a value that conforms fits its width, or it is a byte in a list of them. -/
theorem Conforms.fits_or_byte {s : Shape} {v : Decoded} {w : Width} {n : Int64}
    (h : s.Conforms v) (hb : s.Binds v (.integer w) (.integer n)) :
    w ≠ .w8 ∧ w.Fits n.toInt ∨
      w = .w8 ∧ ∃ bytes, s.Binds v (.list (.integer .w8)) (.list (Decoded.byteIntegers bytes)) ∧
        .integer n ∈ Decoded.byteIntegers bytes := by
  generalize hpart : Shape.integer w = part at hb
  generalize hu : Decoded.integer n = u at hb
  induction hb with
  | self s v =>
    subst hpart hu
    exact .inl h
  | field hf _ ih =>
    refine (ih (conforms_of_mem_zip h hf) hpart hu).imp_right ?_
    rintro ⟨hw, bytes, hbytes, hn⟩
    exact ⟨hw, bytes, .field hf hbytes, hn⟩
  | element hv hb ih =>
    rcases h with hvs | ⟨rfl, bytes, rfl⟩
    · refine (ih (hvs _ hv) hpart hu).imp_right ?_
      rintro ⟨hw, bytes, hbytes, hn⟩
      exact ⟨hw, bytes, .element hv hbytes, hn⟩
    · cases hb
      cases hpart
      subst hu
      exact .inr ⟨rfl, bytes, .self .., hv⟩

end Shape

/-! ## What is read -/

section
variable {L : Limits} {d : Nat} {data : List UInt8} {v : Decoded}

theorem conforms_byteElement {element : Shape} {ofByte : UInt8 → Decoded}
    (h : byteElement? element = some ofByte) (hw : element ≠ .integer .w8) (b : UInt8) :
    element.Conforms (ofByte b) := by
  cases element with
  | integer w =>
    cases h
    have hne : w ≠ .w8 := fun h => hw (congrArg Shape.integer h)
    have hfits := Width.fits_byte hne b
    refine ⟨hne, ?_⟩
    show w.Fits (Int64.ofInt b.toNat).toInt
    rwa [Width.toInt_ofInt64 (Width.fits_w64_of_fits hfits)]
  | bigInteger | any =>
    cases h
    trivial
  | _ => cases h

theorem conforms_fields_of_reads {fields : List (Field Shape)} {values : List (Field Decoded)}
    (h : ∀ f ∈ fields, ∀ (d : Nat) (data : List UInt8) (v : Decoded),
      Reads (shaped f.value) L d data v → f.value.Conforms v)
    (hr : Reads (shapedFields fields) L d data values) :
    Shape.ConformsFields fields values := by
  induction fields generalizing data values with
  | nil =>
    obtain ⟨-, rfl⟩ := reads_pure_iff.1 hr
    trivial
  | cons f fields ih =>
    obtain ⟨hf, hfs⟩ := List.forall_mem_cons.1 h
    obtain ⟨x, v, y, vs, rfl, rfl, hx, hy⟩ := reads_shapedFields_cons_iff.1 hr
    exact ⟨rfl, hf d x v hx, ih hfs hy⟩

theorem conforms_of_listForm {element : Shape} {tag : Tag} {vs : List Decoded}
    (h : ListForm L d element tag data vs)
    (he : ∀ (d : Nat) (data : List UInt8) (v : Decoded),
      Reads (shaped element) L d data v → element.Conforms v) :
    (Shape.list element).Conforms (.list vs) := by
  unfold Shape.Conforms
  cases h with
  | nil => exact .inl fun _ h => nomatch h
  | @string ofByte bytes hbyte hlt hl =>
    by_cases hw : element = .integer .w8
    · subst hw
      cases hbyte
      exact .inr ⟨rfl, bytes, rfl⟩
    · left
      intro v hv
      obtain ⟨b, -, rfl⟩ := List.mem_map.1 hv
      exact conforms_byteElement hbyte hw b
  | list hlt hl hd hvs =>
    obtain ⟨-, parts, -, hparts⟩ := (reads_repeated_iff (composed_shaped element)).1 hvs
    exact .inl (forall_of_parts hparts (he (d + 1)))

theorem conforms_of_reads (s : Shape) (v : Decoded) (h : Reads (shaped s) L d data v) :
    s.Conforms v := by
  induction s using Shape.induct generalizing d data v with
  | integer w =>
    obtain rfl | hw := eq_or_ne w .w8
    · exact absurd h not_reads_throw
    · rw [shaped_integer hw, reads_map_iff (composed.integer w)] at h
      obtain ⟨k, rfl, hk⟩ := h
      obtain ⟨n, hn, rfl, -⟩ := reads_integer_iff.1 hk
      refine ⟨hw, ?_⟩
      rwa [Width.toInt_ofInt64 (Width.fits_w64_of_fits hn)]
  | unsigned w => exact absurd h not_reads_throw
  | bigInteger =>
    obtain ⟨n, rfl, -⟩ := (reads_map_iff composed.bigInteger _).1 h
    trivial
  | text =>
    obtain ⟨s, rfl, -⟩ := (reads_map_iff (composed.byte.bind composed.textTagged) _).1 h
    trivial
  | taggedText =>
    obtain ⟨_, _, t, -, rfl, -⟩ := reads_shaped_taggedText_iff.1 h
    trivial
  | record fields ih =>
    obtain ⟨_, _, _, values, -, -, -, -, rfl, hvalues, -⟩ := reads_shaped_record_iff.1 h
    exact conforms_fields_of_reads (fun f hf d data v => ih f hf v) hvalues
  | list element ih =>
    obtain ⟨_, _, vs, -, rfl, form⟩ := reads_shaped_list_iff.1 h
    exact conforms_of_listForm form fun d data v => ih v
  | any =>
    obtain ⟨t, rfl, -⟩ := (reads_map_iff composed_term _).1 h
    trivial

end

/-! ## Integers and their widths -/

section
variable {s : Shape} {v : Decoded} {w : Width} {n : Int64}

/-- An integer that is read for an integer of a shape, from any source and whether or not the shape
can be refused, fits the width, which is not 8 bits; or else the width is 8 bits and the integer is
one of the bytes that were read for a list. -/
theorem fits_or_byte_of_binds {r r' : Reader} (h : shaped s r = .ok v r')
    (hb : s.Binds v (.integer w) (.integer n)) :
    w ≠ .w8 ∧ w.Fits n.toInt ∨
      w = .w8 ∧ ∃ bytes, s.Binds v (.list (.integer .w8)) (.list (Decoded.byteIntegers bytes)) ∧
        .integer n ∈ Decoded.byteIntegers bytes := by
  obtain ⟨data, hread, -⟩ := (composed_shaped s).exists_reads_of_ok h
  exact (conforms_of_reads s v hread).fits_or_byte hb

/-- One integer of 16 bits, and one that is a byte. -/
theorem fits_or_byte_of_binds_pair :
    let s : Shape := .record [⟨some "port", .integer .w16⟩, ⟨none, .list (.integer .w8)⟩]
    let v : Decoded := .record [⟨some "port", .integer 8080⟩, ⟨none, .list [.integer 200]⟩]
    (Width.w16 ≠ .w8 ∧ Width.w16.Fits (Int64.toInt 8080) ∨
      Width.w16 = .w8 ∧ ∃ bytes,
        s.Binds v (.list (.integer .w8)) (.list (Decoded.byteIntegers bytes)) ∧
          .integer 8080 ∈ Decoded.byteIntegers bytes) ∧
    (Width.w8 ≠ .w8 ∧ Width.w8.Fits (Int64.toInt 200) ∨
      Width.w8 = .w8 ∧ ∃ bytes,
        s.Binds v (.list (.integer .w8)) (.list (Decoded.byteIntegers bytes)) ∧
          .integer 200 ∈ Decoded.byteIntegers bytes) := by
  have hr : shaped (.record [⟨some "port", .integer .w16⟩, ⟨none, .list (.integer .w8)⟩])
      (memory {} 0 0 [104, 2, 98, 0, 0, 31, 144, 107, 0, 1, 200]) =
        .ok (.record [⟨some "port", .integer 8080⟩, ⟨none, .list [.integer 200]⟩])
          (memory {} 0 11 []) := by decide +kernel
  refine ⟨fits_or_byte_of_binds hr ?_, fits_or_byte_of_binds hr ?_⟩
  · exact .field (.head _) (.self ..)
  · exact .field (.tail _ (.head _)) (.element (.head _) (.self ..))

/-- A string is read as a list of integers of 8 bits. -/
theorem not_fits_of_binds :
    ¬ ∀ (s : Shape) (r r' : Reader) (v : Decoded) (w : Width) (n : Int64),
      shaped s r = .ok v r' → s.Binds v (.integer w) (.integer n) →
        w ≠ .w8 ∧ w.Fits n.toInt := by
  intro hall
  have hr : shaped (.list (.integer .w8)) (memory {} 0 0 [107, 0, 1, 200]) =
      .ok (.list [.integer 200]) (memory {} 0 4 []) := by decide +kernel
  have hb : (Shape.list (.integer .w8)).Binds (.list [.integer 200])
      (.integer .w8) (.integer 200) := .element (.head _) (.self ..)
  exact (hall _ _ _ _ _ _ hr hb).1 rfl

/-- A list of integers of 8 bits is read from a string, and otherwise only when it is empty. -/
theorem reads_list_w8_iff {L : Limits} {d : Nat} {data : List UInt8} :
    Reads (shaped (.list (.integer .w8))) L d data v ↔
      (∃ bytes, bytes.length < 256 ^ 2 ∧ bytes.length ≤ L.maxPayload ∧
        data = Tag.string.byte :: (Digits.bigEndian 2 bytes.length ++ bytes) ∧
          v = .list (Decoded.byteIntegers bytes)) ∨
      v = .list [] ∧ (data = [Tag.nil.byte] ∨
        d < L.maxDepth ∧ data = Tag.list.byte :: (Digits.bigEndian 4 0 ++ [Tag.nil.byte])) := by
  rw [reads_shaped_list_iff]
  constructor
  · rintro ⟨tag, body, vs, rfl, rfl, form⟩
    cases form with
    | nil => exact .inr ⟨rfl, .inl rfl⟩
    | @string ofByte bytes h hlt hl =>
      cases h
      exact .inl ⟨bytes, hlt, hl, rfl, rfl⟩
    | @list body _ hlt hl hd hvs =>
      obtain ⟨-, parts, rfl, hparts⟩ := (reads_repeated_iff (composed_shaped _)).1 hvs
      cases hparts with
      | nil => exact .inr ⟨rfl, .inr ⟨hd, rfl⟩⟩
      | cons hx _ => exact absurd hx not_reads_throw
  · rintro (⟨bytes, hlt, hl, rfl, rfl⟩ | ⟨rfl, rfl | ⟨hd, rfl⟩⟩)
    · exact ⟨.string, _, _, rfl, rfl, .string rfl hlt hl⟩
    · exact ⟨.nil, _, _, rfl, rfl, .nil⟩
    · have hlt : ([] : List Decoded).length < 256 ^ 4 := by decide
      exact ⟨.list, _, _, rfl, rfl, .list hlt (Nat.zero_le _) hd (Reads.pure [])⟩

/-- Where shapes are checked, every integer fits its width, which is not 8 bits. -/
theorem fits_of_decode {L : Limits} {source source' : Source}
    (h : decode source s L = (.ok v, source')) (hb : s.Binds v (.integer w) (.integer n)) :
    w ≠ .w8 ∧ w.Fits n.toInt := by
  obtain ⟨hs, -⟩ := message_of_decode h
  obtain ⟨data, hread, -⟩ := exists_reads_of_decode h
  rcases (conforms_of_reads s v hread).fits_or_byte hb with hw | ⟨-, bytes, hbytes, -⟩
  · exact hw
  · cases hbytes.check hs

end

end ExternalTerm
