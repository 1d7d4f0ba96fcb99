import ExternalTerm.Proofs.Position
import ExternalTerm.Proofs.Reading

/-!
# What follows each tag

* `integerTagged_eq` : a machine integer is an integer of any size, narrowed to the width;
* `reads_bigInteger_iff`, `reads_integer_iff`, `reads_character_iff` : integers and characters;
* `TextForm` : what follows the tag of a text;
* `TermForm` : what follows the tag of a term, one constructor for each form, the elements being
  read as a relation says;
* `reads_term_mono` : larger limits admit what smaller ones do.

Whatever is to be shown of everything that is read goes by cases on these forms, and by induction
on the number of bytes.
-/

namespace ExternalTerm

structure Limits.Below (L L' : Limits) : Prop where
  payload : L.maxPayload ≤ L'.maxPayload
  elements : L.maxElements ≤ L'.maxElements
  depth : L.maxDepth ≤ L'.maxDepth

theorem Width.fits_w64_of_fits {w : Width} {n : Int} (h : w.Fits n) : Width.w64.Fits n := by
  unfold Width.Fits at *
  cases w <;> simp only [Width.bits] at * <;> omega

/-- The width that an integer outside its range is reported for: 64 bits if it exceeds these too. -/
def Width.reported (w : Width) (n : Int) : Width := if w64.Fits n then w else w64

theorem Width.reported_of_fits {w : Width} {n : Int} (h : w64.Fits n) : w.reported n = w :=
  if_pos h

theorem Width.reported_of_not_fits {w : Width} {n : Int} (h : ¬ w64.Fits n) :
    w.reported n = w64 := if_neg h

/-- A byte fits all widths but the smallest. -/
theorem Width.fits_byte {w : Width} (h : w ≠ .w8) (b : UInt8) : w.Fits b.toNat := by
  have hb := b.toNat_lt
  cases w with
  | w8 => exact absurd rfl h
  | _ => exact ⟨by simp only [Width.bits]; omega, by simp only [Width.bits]; omega⟩

theorem ofInteger_byte (b : UInt8) : Term.ofInteger b.toNat = .int (Int32.ofNat b.toNat) := by
  have hb := b.toNat_lt
  rw [Term.ofInteger, if_pos]
  · rfl
  · rw [Width.fits_w32_iff]
    omega

namespace Reader

theorem byteList_eq (bytes : List UInt8) :
    byteList bytes = .list (bytes.map fun b => .ofInteger b.toNat) := by
  simp only [byteList, ofInteger_byte]

/-! ## Parts -/

section
variable {α β : Type} {R S : List UInt8 → α → Prop} {parts : List (List UInt8)} {as : List α}

theorem length_le_flatten {x : List UInt8} (h : x ∈ parts) : x.length ≤ parts.flatten.length := by
  induction parts with
  | nil => cases h
  | cons y parts ih =>
    rw [List.flatten_cons, List.length_append]
    rcases List.mem_cons.1 h with rfl | h
    · omega
    · have := ih h
      omega

/-- A relation that implies another on parts no longer than all parts together. -/
theorem forall₂_of_parts (h : List.Forall₂ R parts as)
    (himp : ∀ x a, x.length ≤ parts.flatten.length → R x a → S x a) : List.Forall₂ S parts as := by
  induction h with
  | nil => exact .nil
  | @cons x a parts as hx h ih =>
    refine .cons (himp x a (length_le_flatten List.mem_cons_self) hx) (ih fun y b hy => ?_)
    refine himp y b ?_
    rw [List.flatten_cons, List.length_append]
    omega

/-- What every part implies holds of everything that is made of the parts. -/
theorem forall_of_parts {P : α → Prop} (h : List.Forall₂ R parts as)
    (hP : ∀ x a, R x a → P a) : ∀ a ∈ as, P a := by
  induction h with
  | nil => exact fun _ h => nomatch h
  | cons hx _ ih => exact List.forall_mem_cons.2 ⟨hP _ _ hx, ih⟩

theorem length_le_of_parts (h : List.Forall₂ R parts as) (hpos : ∀ x a, R x a → 0 < x.length) :
    as.length ≤ parts.flatten.length := by
  induction h with
  | nil => exact Nat.zero_le _
  | @cons x a parts as hx h ih =>
    have := hpos x a hx
    rw [List.flatten_cons, List.length_append, List.length_cons]
    omega

/-- Where each part of a sequence can be read in another way, so can the sequence. -/
theorem exists_repeated {m : ReadM α} {m' : ReadM β} {L L' : Limits} {d d' n : Nat}
    {data : List UInt8} (hm : Composed m) {V : α → β → Prop}
    (h : ∀ x a, x.length ≤ data.length → Reads m L d x a → ∃ b, Reads m' L' d' x b ∧ V a b)
    (hr : Reads (repeated n m) L d data as) :
    ∃ bs, Reads (repeated n m') L' d' data bs ∧ List.Forall₂ V as bs := by
  induction n generalizing data as with
  | zero =>
    obtain ⟨rfl, rfl⟩ := reads_pure_iff.1 hr
    exact ⟨[], Reads.pure [], .nil⟩
  | succ n ih =>
    rw [repeated_succ] at hr ⊢
    obtain ⟨x, a, y, rfl, hx, hy⟩ := (reads_bind_iff hm fun a => (hm.repeated n).map (a :: ·)).1 hr
    obtain ⟨as, rfl, has⟩ := (reads_map_iff (hm.repeated n) (a :: ·)).1 hy
    obtain ⟨b, hb, hab⟩ := h x a (by simp) hx
    obtain ⟨bs, hbs, hall⟩ := ih (fun z c hz => h z c (by simp; omega)) has
    have hmap := hbs.bind (f := fun bs => pure (b :: bs)) (Reads.pure (b :: bs))
    rw [List.append_nil] at hmap
    exact ⟨b :: bs, hb.bind hmap, .cons hab hall⟩

end

/-! ## Tags -/

section
variable {α β : Type} {L : Limits} {d : Nat} {data : List UInt8} {f : UInt8 → ReadM β} {b : β}

/-- What begins with a tag, and is refused when it begins with another byte. -/
theorem reads_tag_bind_iff (hf : ∀ t, Composed (f t))
    (hno : ∀ t, Tag.ofByte? t = none → ∃ e, f t = throw e) :
    Reads (byte >>= f) L d data b ↔
      ∃ tag body, data = Tag.byte tag :: body ∧ Reads (f tag.byte) L d body b := by
  rw [reads_byte_bind_iff hf]
  constructor
  · rintro ⟨t, body, rfl, h⟩
    cases ht : Tag.ofByte? t with
    | none =>
      obtain ⟨e, he⟩ := hno t ht
      rw [he] at h
      exact absurd h not_reads_throw
    | some tag =>
      obtain rfl := Tag.ofByte?_eq_some_iff.1 ht
      exact ⟨tag, body, rfl, h⟩
  · rintro ⟨tag, body, rfl, h⟩
    exact ⟨tag.byte, body, rfl, h⟩

/-- A count, what it counts, and the end of a list. -/
theorem reads_counted_iff {m : Nat → ReadM α} (hm : ∀ n, Composed (m n)) {g : α → β} :
    Reads (listCount >>= fun n => m n >>= fun a => nil >>= fun _ => pure (g a)) L d data b ↔
      ∃ n body a, n < 256 ^ 4 ∧ n ≤ L.maxElements ∧ b = g a ∧ Reads (m n) L d body a ∧
        data = Digits.bigEndian 4 n ++ (body ++ [Tag.nil.byte]) := by
  have hnil (a : α) : Composed (nil >>= fun _ => pure (g a) : ReadM β) := composed.nil.map _
  rw [reads_bind_iff composed.listCount fun n => (hm n).bind hnil]
  constructor
  · rintro ⟨_, n, _, rfl, hn, h⟩
    obtain ⟨body, a, _, rfl, ha, h⟩ := (reads_bind_iff (hm n) hnil).1 h
    obtain ⟨u, rfl, hend⟩ := (reads_map_iff composed.nil _).1 h
    obtain rfl := reads_nil_iff.1 hend
    obtain ⟨hlt, hle, rfl⟩ := reads_listCount_iff.1 hn
    exact ⟨n, body, a, hlt, hle, rfl, ha, rfl⟩
  · rintro ⟨n, body, a, hlt, hle, rfl, ha, rfl⟩
    have hend := ha.bind (f := fun a => nil >>= fun _ => pure (g a))
      ((reads_map_iff composed.nil _).2 ⟨(), rfl, reads_nil⟩)
    exact ⟨_, n, _, rfl, reads_listCount_iff.2 ⟨hlt, hle, rfl⟩, hend⟩

/-- A length of two bytes and a run of that length. -/
theorem reads_shortRun_iff {g : List UInt8 → β} :
    Reads (unsigned 2 >>= fun n => run n >>= fun bytes => pure (g bytes)) L d data b ↔
      ∃ bytes, bytes.length < 256 ^ 2 ∧ bytes.length ≤ L.maxPayload ∧ b = g bytes ∧
        data = Digits.bigEndian 2 bytes.length ++ bytes := by
  rw [reads_bind_iff (composed.unsigned 2) fun n => (Composed.run n).map g]
  constructor
  · rintro ⟨_, n, _, rfl, hn, h⟩
    obtain ⟨bytes, rfl, hrun⟩ := (reads_map_iff (.run n) g).1 h
    obtain ⟨rfl, rfl, hl⟩ := reads_run_iff.1 hrun
    obtain ⟨hlt, rfl⟩ := reads_unsigned_iff.1 hn
    exact ⟨bytes, hlt, hl, rfl, rfl⟩
  · rintro ⟨bytes, hlt, hl, rfl, rfl⟩
    exact ⟨_, bytes.length, _, rfl, reads_unsigned hlt,
      (reads_map_iff (.run _) g).2 ⟨bytes, rfl, reads_run rfl hl⟩⟩

end

/-! ## Integers and characters -/

section
variable {L L' : Limits} {d d' : Nat} {data : List UInt8}

theorem bigIntegerTagged_of_no_tag {t : UInt8} (h : Tag.ofByte? t = none) :
    bigIntegerTagged t = throw (.unexpectedTag t .integer) := by
  rw [bigIntegerTagged, h]

theorem reads_bigInteger_iff {n : Int} :
    Reads bigInteger L d data n ↔ ∃ tag body, data = Tag.byte tag :: body ∧
      IntegerForm tag body n ∧ (tag = .smallBig → body.length ≤ L.maxPayload + 2) := by
  refine (reads_tag_bind_iff composed.bigIntegerTagged fun t ht =>
    ⟨_, bigIntegerTagged_of_no_tag ht⟩).trans ?_
  simp only [reads_bigIntegerTagged_iff]

def narrow (width : Width) (n : Int) : ReadM Int64 :=
  if width.Fits n then pure (Int64.ofInt n) else throw (.overflow n (width.reported n))

theorem composed_narrow (width : Width) (n : Int) : Composed (narrow width n) :=
  .ite (.pure _) (.throw not_false)

/-- An integer of 64 bits is compared with the width alone. -/
theorem narrow_toInt (width : Width) (k : Int64) :
    narrow width k.toInt =
      if ¬ width.Fits k.toInt then throw (.overflow k.toInt width) else pure k := by
  rw [narrow, Int64.ofInt_toInt, Width.reported_of_fits (Width.fits_toInt64 k), ite_not]

theorem unsigned_one : unsigned 1 = byte >>= fun b => pure b.toNat := by
  funext r
  cases h : exactly 1 r with
  | ok bytes r' =>
    obtain ⟨b, rfl⟩ := List.length_eq_one_iff.1 (exactly_ok h).1
    rw [unsigned, byte, bind_assoc, bind_ok h, bind_ok h]
    rfl
  | error e r' => rw [unsigned, byte, bind_assoc, bind_error h, bind_error h]

/-- Reading an integer as one of 64 bits, and then of a width, narrows its value, whatever the form
it has. -/
theorem integerTagged_eq (tag : UInt8) (width : Width) :
    integerTagged tag width = bigIntegerTagged tag >>= narrow width := by
  have hlast : integerTagged tag width = int64Tagged tag >>= fun k => narrow width k.toInt := by
    simp only [narrow_toInt]
    rfl
  rw [hlast, int64Tagged, bigIntegerTagged]
  split
  · have hbyte (b : UInt8) : (Int64.ofNat b.toNat).toInt = b.toNat :=
      Int64.toInt_ofNat_of_lt (Nat.lt_trans b.toNat_lt (by decide))
    simp only [unsigned_one, bind_assoc, pure_bind, hbyte]
  · simp only [bind_assoc, pure_bind, Int32.toInt_toInt64]
  · rw [bind_assoc]
    congr
    funext n
    by_cases hn : Width.w64.Fits n
    · rw [if_neg (not_not_intro hn), pure_bind, Width.toInt_ofInt64 hn]
    · rw [if_pos hn, narrow, if_neg (mt Width.fits_w64_of_fits hn),
        Width.reported_of_not_fits hn]
      rfl
  · rfl

theorem reads_narrow_iff {w : Width} {n : Int} {k : Int64} :
    Reads (narrow w n) L d data k ↔ data = [] ∧ w.Fits n ∧ k = Int64.ofInt n := by
  unfold narrow
  by_cases hw : w.Fits n
  · rw [if_pos hw, reads_pure_iff]
    simp only [hw, true_and]
  · rw [if_neg hw]
    exact iff_of_false not_reads_throw fun h => hw h.2.1

theorem integer_eq (w : Width) : integer w = bigInteger >>= narrow w := by
  rw [bigInteger, bind_assoc, integer]
  simp only [integerTagged_eq]

theorem reads_integer_iff {w : Width} {k : Int64} :
    Reads (integer w) L d data k ↔
      ∃ n, w.Fits n ∧ k = Int64.ofInt n ∧ Reads bigInteger L d data n := by
  rw [integer_eq, reads_bind_iff composed.bigInteger (composed_narrow w)]
  simp only [reads_narrow_iff]
  constructor
  · rintro ⟨x, n, _, rfl, hx, rfl, hn, rfl⟩
    rw [List.append_nil]
    exact ⟨n, hn, rfl, hx⟩
  · rintro ⟨n, hn, rfl, hx⟩
    exact ⟨data, n, [], (List.append_nil _).symm, hx, rfl, hn, rfl⟩

theorem char?_eq_some_iff {n : Int} {c : Char} : char? n = some c ↔ n = c.toNat := by
  unfold char?
  constructor
  · intro h
    split at h
    next hn =>
      cases h
      rw [Utf8.toNat_ofNat_valid hn.2]
      omega
    next => cases h
  · rintro rfl
    rw [if_pos ⟨by omega, c.valid⟩]
    simp

theorem fits_w64_char (c : Char) : Width.w64.Fits c.toNat := by
  have hc := Utf8.toNat_char_lt c
  rw [Width.fits_w64_iff]
  omega

theorem reads_character_iff {c : Char} :
    Reads character L d data c ↔ Reads bigInteger L d data c.toNat := by
  rw [character_eq, reads_bind_iff (composed.integer .w64) composed_characterOf]
  simp only [reads_integer_iff]
  constructor
  · rintro ⟨x, _, y, rfl, ⟨n, hn, rfl, hx⟩, hy⟩
    rw [characterOf, Width.toInt_ofInt64 hn] at hy
    cases hc : char? n with
    | none =>
      rw [hc] at hy
      exact absurd hy not_reads_throw
    | some c' =>
      rw [hc] at hy
      obtain ⟨rfl, rfl⟩ := reads_pure_iff.1 hy
      rw [List.append_nil, ← char?_eq_some_iff.1 hc]
      exact hx
  · intro h
    refine ⟨data, _, [], (List.append_nil _).symm, ⟨_, fits_w64_char c, rfl, h⟩, ?_⟩
    rw [characterOf, Width.toInt_ofInt64 (fits_w64_char c), char?_eq_some_iff.2 rfl]
    exact Reads.pure c

end

/-! ## Texts -/

/-- What follows the tag of a text within limits, and the text: a length and the text in UTF-8; a
count, the numbers of the characters and the end of the list; or nothing. -/
inductive TextForm (L : Limits) (d : Nat) : Tag → List UInt8 → String → Prop
  | sized {tag : Tag} {w : Nat} {s : String} (hw : tag.textWidth? = some w)
      (hs : Utf8.size s < 256 ^ w) (hl : Utf8.size s ≤ L.maxPayload) :
      TextForm L d tag (Digits.bigEndian w (Utf8.size s) ++ Utf8.encode s) s
  | characters {chars : List Char} {body : List UInt8} (hn : chars.length < 256 ^ 4)
      (hl : chars.length ≤ L.maxElements)
      (h : Reads (repeated chars.length character) L d body chars) :
      TextForm L d .list (Digits.bigEndian 4 chars.length ++ (body ++ [Tag.nil.byte]))
        (String.ofList chars)
  | nil : TextForm L d .nil [] ""

section
variable {L : Limits} {d : Nat} {data body : List UInt8} {tag : Tag} {s : String}

theorem textTagged_of_no_tag {t : UInt8} (h : Tag.ofByte? t = none) :
    textTagged t = throw (.unexpectedTag t .text) := by
  rw [textTagged, h]

theorem textTagged_of_no_family (h : tag.textFamily? = none) :
    textTagged tag.byte = throw (.unexpectedTag tag.byte .text) := by
  rw [textTagged, Tag.ofByte?_byte]
  cases tag <;> first | cases h; done | rfl

theorem length_of_reads_repeated {α : Type} {m : ReadM α} {n : Nat} {as : List α}
    (hm : Composed m) (h : Reads (repeated n m) L d data as) : as.length = n :=
  ((reads_repeated_iff hm).1 h).1

theorem reads_characters_iff :
    Reads characters L d data s ↔ TextForm L d .list data s := by
  refine (reads_counted_iff fun n => composed.character.repeated n).trans ?_
  constructor
  · rintro ⟨n, body, chars, hlt, hle, rfl, h, rfl⟩
    obtain rfl := length_of_reads_repeated composed.character h
    exact .characters hlt hle h
  · rintro h
    cases h with
    | sized hw => cases hw
    | characters hn hl h => exact ⟨_, _, _, hn, hl, rfl, h, rfl⟩

theorem reads_textTagged_iff :
    Reads (textTagged tag.byte) L d body s ↔ TextForm L d tag body s := by
  cases hw : tag.textWidth? with
  | some w =>
    rw [textTagged_of_width hw, reads_sized_iff]
    constructor
    · rintro ⟨hs, hl, rfl⟩
      exact .sized hw hs hl
    · rintro (⟨hw', hs, hl⟩ | _ | _)
      · cases hw.symm.trans hw'
        exact ⟨hs, hl, rfl⟩
      · cases hw
      · cases hw
  | none =>
    rw [textTagged, Tag.ofByte?_byte]
    cases tag with
    | list => exact reads_characters_iff
    | nil =>
      refine reads_pure_iff.trans ⟨?_, ?_⟩
      · rintro ⟨rfl, rfl⟩
        exact .nil
      · rintro (⟨hw', -, -⟩ | _ | _)
        · cases hw'
        · exact ⟨rfl, rfl⟩
    | smallInteger | integer | smallTuple | largeTuple | smallBig =>
      refine ⟨fun h => absurd h not_reads_throw, ?_⟩
      rintro (⟨hw', -, -⟩ | _ | _)
      cases hw'
    | _ => cases hw

theorem reads_text_iff :
    Reads text L d data s ↔ ∃ tag body, data = Tag.byte tag :: body ∧ TextForm L d tag body s := by
  refine (reads_tag_bind_iff composed.textTagged fun t ht => ⟨_, textTagged_of_no_tag ht⟩).trans ?_
  simp only [reads_textTagged_iff]

/-- A tagged text is a text that keeps the family of its tag. -/
theorem reads_taggedTextTagged_iff {t : TaggedText} :
    Reads (taggedTextTagged tag.byte) L d body t ↔
      tag.textFamily? = some t.family ∧ TextForm L d tag body t.value := by
  rw [taggedTextTagged, Tag.ofByte?_byte, Option.bind_some]
  cases hf : tag.textFamily? with
  | none =>
    refine ⟨fun h => absurd h not_reads_throw, fun h => nomatch h.1⟩
  | some family =>
    refine (reads_map_iff (composed.textTagged tag.byte) _).trans ?_
    simp only [reads_textTagged_iff]
    constructor
    · rintro ⟨s, rfl, h⟩
      exact ⟨rfl, h⟩
    · rintro ⟨hfam, h⟩
      cases hfam
      exact ⟨t.value, rfl, h⟩

end

/-! ## Terms -/

/-- What follows the tag of a term inside `d` tuples and lists, and the term, when the elements are
read as `R` says. -/
inductive TermForm (L : Limits) (d : Nat) (R : List UInt8 → Term → Prop) :
    Tag → List UInt8 → Term → Prop
  | integer {tag : Tag} {body : List UInt8} {n : Int} (h : IntegerForm tag body n)
      (hl : tag = .smallBig → body.length ≤ L.maxPayload + 2) :
      TermForm L d R tag body (.ofInteger n)
  | atom {tag : Tag} {w : Nat} {s : String} (ht : tag.textFamily? = some .atom)
      (hw : tag.textWidth? = some w) (hs : Utf8.size s < 256 ^ w)
      (hl : Utf8.size s ≤ L.maxPayload) :
      TermForm L d R tag (Digits.bigEndian w (Utf8.size s) ++ Utf8.encode s) (.atom s)
  | text {s : String} (hs : Utf8.size s < 256 ^ 4) (hl : Utf8.size s ≤ L.maxPayload) :
      TermForm L d R .binary (Digits.bigEndian 4 (Utf8.size s) ++ Utf8.encode s) (.text s)
  | string {bytes : List UInt8} (h : bytes.length < 256 ^ 2) (hl : bytes.length ≤ L.maxPayload) :
      TermForm L d R .string (Digits.bigEndian 2 bytes.length ++ bytes) (byteList bytes)
  | nil : TermForm L d R .nil [] (.list [])
  | tuple {tag : Tag} {w : Nat} {parts : List (List UInt8)} {ts : List Term}
      (hw : tag.tupleWidth? = some w) (hn : ts.length < 256 ^ w) (hl : ts.length ≤ L.maxElements)
      (hd : d < L.maxDepth) (h : List.Forall₂ R parts ts) :
      TermForm L d R tag (Digits.bigEndian w ts.length ++ parts.flatten) (.tuple ts)
  | list {parts : List (List UInt8)} {ts : List Term} (hn : ts.length < 256 ^ 4)
      (hl : ts.length ≤ L.maxElements) (hd : d < L.maxDepth) (h : List.Forall₂ R parts ts) :
      TermForm L d R .list (Digits.bigEndian 4 ts.length ++ (parts.flatten ++ [Tag.nil.byte]))
        (.list ts)

section
variable {L L' : Limits} {d : Nat} {data body : List UInt8} {tag : Tag} {t : Term}
  {R R' : List UInt8 → Term → Prop}

theorem form_of_reads (h : Reads (termBody term tag.byte) L d body t) :
    TermForm L d (Reads term L (d + 1)) tag body t := by
  rw [termBody, Tag.ofByte?_byte] at h
  cases tag with
  | smallInteger | integer | smallBig =>
    obtain ⟨n, rfl, hn⟩ := (reads_map_iff (composed.bigIntegerTagged _) _).1 h
    obtain ⟨hform, hl⟩ := reads_bigIntegerTagged_iff.1 hn
    exact .integer hform hl
  | atom | smallAtom | atomUtf8 | smallAtomUtf8 =>
    obtain ⟨s, rfl, hs⟩ := (reads_map_iff (composed.textTagged _) _).1 h
    rw [textTagged_of_width rfl] at hs
    obtain ⟨hlt, hl, rfl⟩ := reads_sized_iff.1 hs
    exact .atom rfl rfl hlt hl
  | binary =>
    obtain ⟨s, rfl, hs⟩ := (reads_map_iff (composed.textTagged _) _).1 h
    rw [textTagged_of_width rfl] at hs
    obtain ⟨hlt, hl, rfl⟩ := reads_sized_iff.1 hs
    exact .text hlt hl
  | string =>
    obtain ⟨bytes, hlt, hl, rfl, rfl⟩ := reads_shortRun_iff.1 h
    exact .string hlt hl
  | nil =>
    obtain ⟨rfl, rfl⟩ := reads_pure_iff.1 h
    exact .nil
  | smallTuple | largeTuple =>
    obtain ⟨_, n, _, rfl, hn, htuple⟩ := (reads_bind_iff (composed.tupleArity _) fun n =>
      (composed_elements composed_term n).map _).1 h
    obtain ⟨ts, rfl, hts⟩ := (reads_map_iff (composed_elements composed_term n) _).1 htuple
    obtain ⟨w, hw, hlt, hl, rfl⟩ := reads_tupleArity_iff.1 hn
    obtain ⟨hd, rfl, parts, rfl, hparts⟩ := (reads_elements_iff composed_term).1 hts
    exact .tuple hw hlt hl hd hparts
  | list =>
    obtain ⟨n, _, ts, hlt, hl, rfl, hts, rfl⟩ :=
      (reads_counted_iff (composed_elements composed_term)).1 h
    obtain ⟨hd, rfl, parts, rfl, hparts⟩ := (reads_elements_iff composed_term).1 hts
    exact .list hlt hl hd hparts

theorem reads_of_form (h : TermForm L d (Reads term L (d + 1)) tag body t) :
    Reads (termBody term tag.byte) L d body t := by
  cases h with
  | integer hform hl =>
    rw [termBody_of_integerForm hform]
    exact (reads_map_iff (composed.bigIntegerTagged _) _).2
      ⟨_, rfl, reads_bigIntegerTagged_iff.2 ⟨hform, hl⟩⟩
  | @atom tag w s htag hw hs hl =>
    rw [termBody_of_atom htag, textTagged_of_width hw]
    exact (reads_map_iff (composed_sized w) _).2 ⟨s, rfl, reads_sized_iff.2 ⟨hs, hl, rfl⟩⟩
  | @text s hs hl =>
    rw [termBody_binary, textTagged_of_width rfl]
    exact (reads_map_iff (composed_sized 4) _).2 ⟨s, rfl, reads_sized_iff.2 ⟨hs, hl, rfl⟩⟩
  | @string bytes hlt hl =>
    rw [termBody_string]
    exact reads_shortRun_iff.2 ⟨bytes, hlt, hl, rfl, rfl⟩
  | nil =>
    rw [termBody_nil]
    exact Reads.pure _
  | @tuple tag w parts ts hw hlt hl hd hparts =>
    have hts := (reads_elements_iff composed_term).2 ⟨hd, rfl, parts, rfl, hparts⟩
    rw [termBody_of_tupleWidth hw]
    exact (reads_tupleArity_iff.2 ⟨w, hw, hlt, hl, rfl⟩).bind
      ((reads_map_iff (composed_elements composed_term _) _).2 ⟨ts, rfl, hts⟩)
  | @list parts ts hlt hl hd hparts =>
    have hts := (reads_elements_iff composed_term).2 ⟨hd, rfl, parts, rfl, hparts⟩
    rw [termBody_list]
    exact (reads_counted_iff (composed_elements composed_term)).2
      ⟨_, _, ts, hlt, hl, rfl, hts, rfl⟩

theorem reads_term_form_iff :
    Reads term L d data t ↔ ∃ tag body, data = Tag.byte tag :: body ∧
      TermForm L d (Reads term L (d + 1)) tag body t := by
  rw [reads_term_iff]
  constructor
  · rintro ⟨tag, body, rfl, h⟩
    exact ⟨tag, body, rfl, form_of_reads h⟩
  · rintro ⟨tag, body, rfl, h⟩
    exact ⟨tag, body, rfl, reads_of_form h⟩

theorem TermForm.mono (hL : L.Below L') (h : TermForm L d R tag body t)
    (hR : ∀ x u, x.length ≤ body.length → R x u → R' x u) : TermForm L' d R' tag body t := by
  have hp := hL.payload
  cases h with
  | integer hform hl =>
    exact .integer hform fun ht => Nat.le_trans (hl ht) (Nat.add_le_add_right hp 2)
  | atom htag hw hs hl => exact .atom htag hw hs (Nat.le_trans hl hp)
  | text hs hl => exact .text hs (Nat.le_trans hl hp)
  | string hlt hl => exact .string hlt (Nat.le_trans hl hp)
  | nil => exact .nil
  | tuple hw hn hl hd h =>
    refine .tuple hw hn (Nat.le_trans hl hL.elements) (Nat.lt_of_lt_of_le hd hL.depth) ?_
    exact forall₂_of_parts h fun x u hx => hR x u (by rw [List.length_append]; omega)
  | list hn hl hd h =>
    refine .list hn (Nat.le_trans hl hL.elements) (Nat.lt_of_lt_of_le hd hL.depth) ?_
    exact forall₂_of_parts h fun x u hx => hR x u (by simp only [List.length_append]; omega)

theorem TermForm.tuple_of_reads {w : Nat} {ts : List Term} (hw : tag.tupleWidth? = some w)
    (hn : ts.length < 256 ^ w) (hl : ts.length ≤ L.maxElements) (hd : d < L.maxDepth)
    (h : Reads (repeated ts.length term) L (d + 1) body ts) :
    TermForm L d (Reads term L (d + 1)) tag (Digits.bigEndian w ts.length ++ body) (.tuple ts) := by
  obtain ⟨-, parts, rfl, hparts⟩ := (reads_repeated_iff composed_term).1 h
  exact .tuple hw hn hl hd hparts

theorem TermForm.list_of_reads {ts : List Term} (hn : ts.length < 256 ^ 4)
    (hl : ts.length ≤ L.maxElements) (hd : d < L.maxDepth)
    (h : Reads (repeated ts.length term) L (d + 1) body ts) :
    TermForm L d (Reads term L (d + 1)) .list
      (Digits.bigEndian 4 ts.length ++ (body ++ [Tag.nil.byte])) (.list ts) := by
  obtain ⟨-, parts, rfl, hparts⟩ := (reads_repeated_iff composed_term).1 h
  exact .list hn hl hd hparts

/-- What is read within limits is read within larger limits. -/
theorem reads_term_mono (hL : L.Below L') (h : Reads term L d data t) : Reads term L' d data t := by
  induction hlen : data.length using Nat.strong_induction_on generalizing d data t with
  | _ n ih =>
  obtain ⟨tag, body, rfl, form⟩ := reads_term_form_iff.1 h
  refine reads_term_form_iff.2 ⟨tag, body, rfl, form.mono hL fun x u hx hu => ?_⟩
  exact ih x.length (by rw [← hlen, List.length_cons]; omega) hu rfl

theorem reads_term_of_bigInteger {n : Int} {d' : Nat} (h : Reads bigInteger L d data n)
    (hL : L.maxPayload ≤ L'.maxPayload) : Reads term L' d' data (.ofInteger n) := by
  obtain ⟨tag, body, rfl, hform, hl⟩ := reads_bigInteger_iff.1 h
  refine reads_term_form_iff.2 ⟨tag, body, rfl, .integer hform fun ht => ?_⟩
  exact Nat.le_trans (hl ht) (Nat.add_le_add_right hL 2)

end

end Reader

end ExternalTerm
