import ExternalTerm.Proofs.RoundTrip
import ExternalTerm.Proofs.Shaped

/-!
# Reading what was written, against a shape

`Shape.project? s t` is the value that the term `t` has as something of the shape `s`, if it is
something of that shape.

* `textFamily?_of_writtenForm` : which of the written forms carry text;
* `gives_shaped` : on the encoding of a term within limits, reading against a shape gives the
  projection of the term, and fails when there is none.

On a new reader without limits the same holds whatever follows the encoding.
-/

namespace ExternalTerm

open Reader

/-- The text that a term can stand for: its own, or the one that its elements spell. -/
def Term.asText? : Term → Option String
  | .atom s | .text s => some s
  | .list ts => (ts.mapM fun t : Term => t.integer?.bind char?).map String.ofList
  | _ => none

def Term.family : Term → TextFamily
  | .atom _ => .atom
  | _ => .string

namespace Shape

mutual

/-- The value of a term as something of the shape. -/
def project? : Shape → Term → Option Decoded
  | .integer w, t =>
    t.integer?.bind fun n => if w.Fits n then some (.integer (Int64.ofInt n)) else none
  | .unsigned _, _ => none
  | .bigInteger, t => t.integer?.map .bigInteger
  | .text, t => t.asText?.map .text
  | .taggedText, t => t.asText?.map fun s => .tagged ⟨s, t.family⟩
  | .record fields, .tuple ts => (projectFields? fields ts).map .record
  | .record _, _ => none
  | .list element, .list ts => (ts.mapM (project? element)).map .list
  | .list _, _ => none
  | .any, t => some (.term t.normalize)

def projectFields? : List (Field Shape) → List Term → Option (List (Field Decoded))
  | [], [] => some []
  | ⟨name, shape⟩ :: fields, t :: ts =>
    (project? shape t).bind fun value =>
      (projectFields? fields ts).map fun values => ⟨name, value⟩ :: values
  | _, _ => none

end

end Shape

namespace Reader

section
variable {L : Limits} {d : Nat} {t : Term} {tag : Tag} {body : List UInt8}

def AnyError (_ : DecodeError) : Prop := True

theorem fails_any_throw {α : Type} {e : DecodeError} {data : List UInt8} :
    Fails AnyError (throw e : ReadM α) L d data := fails_throw trivial

/-! ## Integers -/

theorem bigIntegerTagged_of_not_integer (form : WrittenForm t tag body) (h : t.integer? = none) :
    bigIntegerTagged tag.byte = throw (.unexpectedTag tag.byte .integer) := by
  rw [bigIntegerTagged, Tag.ofByte?_byte]
  cases form with
  | integer ht => rw [h] at ht; cases ht
  | atom ht => cases tag <;> cases ht <;> rfl
  | text => rfl
  | tuple hw => cases tag <;> cases hw <;> rfl
  | list => rfl

theorem gives_integer_written (form : WrittenForm t tag body) (h : t.payload ≤ L.maxPayload) :
    Gives AnyError (bigIntegerTagged tag.byte) L d body t.integer? := by
  cases ht : t.integer? with
  | none =>
    rw [bigIntegerTagged_of_not_integer form ht]
    exact fails_any_throw
  | some n =>
    cases form with
    | integer ht' hform hl =>
      rw [ht] at ht'
      cases ht'
      exact reads_bigIntegerTagged_iff.2 ⟨hform, (hl _).2 h⟩
    | _ => cases ht

theorem gives_narrow (w : Width) (n : Int) :
    Gives AnyError (narrow w n) L d [] (if w.Fits n then some (Int64.ofInt n) else none) := by
  unfold narrow
  by_cases hw : w.Fits n
  · rw [if_pos hw, if_pos hw]
    exact Gives.pure _
  · rw [if_neg hw, if_neg hw]
    exact fails_any_throw

theorem gives_integerTagged_written (form : WrittenForm t tag body)
    (h : t.payload ≤ L.maxPayload) (w : Width) :
    Gives AnyError (integerTagged tag.byte w) L d body
      (t.integer?.bind fun n => if w.Fits n then some (Int64.ofInt n) else none) := by
  have hr := (gives_integer_written (d := d) form h).bind fun n _ => gives_narrow w n
  rw [integerTagged_eq]
  rwa [List.append_nil] at hr

theorem gives_integer_encoded (ht : t.Encodable) (h : t.payload ≤ L.maxPayload) (w : Width) :
    Gives AnyError (integer w) L d t.encoded
      (t.integer?.bind fun n => if w.Fits n then some (Int64.ofInt n) else none) := by
  obtain ⟨tag, body, hb, form⟩ := exists_writtenForm ht
  rw [hb]
  exact Gives.byte_bind (gives_integerTagged_written form h w)

/-! ## Texts -/

theorem char?_of_not_fits {n : Int} (h : ¬ Width.w64.Fits n) : char? n = none := by
  rw [Option.eq_none_iff_forall_ne_some]
  intro c hc
  exact h (char?_eq_some_iff.1 hc ▸ fits_w64_char c)

theorem gives_character (ht : t.Encodable) (h : t.payload ≤ L.maxPayload) :
    Gives AnyError character L d t.encoded (t.integer?.bind char?) := by
  have hchar (code : Int64) : Gives AnyError (characterOf code) L d [] (char? code.toInt) := by
    unfold characterOf
    cases char? code.toInt with
    | none => exact fails_any_throw
    | some c => exact Reads.pure c
  have hr := (gives_integer_encoded (d := d) ht h .w64).bind fun code _ => hchar code
  rw [List.append_nil] at hr
  have ho : ((t.integer?.bind fun n => if Width.w64.Fits n then some (Int64.ofInt n) else none).bind
      fun code => char? code.toInt) = t.integer?.bind char? := by
    cases t.integer? with
    | none => rfl
    | some n =>
      rw [Option.bind_some, Option.bind_some]
      by_cases hn : Width.w64.Fits n
      · rw [if_pos hn, Option.bind_some, Width.toInt_ofInt64 hn]
      · rw [if_neg hn, char?_of_not_fits hn]
        rfl
  rw [ho] at hr
  exact hr

theorem gives_sized_within {s : String} {w : Nat} (hs : Utf8.size s < 256 ^ w)
    (h : Utf8.size s ≤ L.maxPayload) :
    Gives AnyError (unsigned w >>= utf8) L d (Digits.bigEndian w (Utf8.size s) ++ Utf8.encode s)
      (some s) := reads_sized_iff.2 ⟨hs, h, rfl⟩

theorem gives_characters {ts : List Term} (hts : ∀ t ∈ ts, t.Encodable)
    (hlen : ts.length < 256 ^ 4) (hn : ts.length ≤ L.maxElements)
    (h : ∀ t ∈ ts, t.payload ≤ L.maxPayload) :
    Gives AnyError characters L d
      (Digits.bigEndian 4 ts.length ++ (Term.allEncoded ts ++ [Tag.nil.byte]))
      (Term.list ts).asText? := by
  rw [Term.allEncoded_eq_flatMap]
  refine Reads.gives_bind (reads_listCount_iff.2 ⟨hlen, hn, rfl⟩) ?_
  exact gives_closed (gives_repeated fun t ht => gives_character (hts t ht) (h t ht)) String.ofList

/-- The family of the text that is written after a tag, where text can be. -/
theorem textFamily?_of_writtenForm (form : WrittenForm t tag body) :
    tag.textFamily? = match t with
      | .atom _ | .text _ | .list _ => some t.family
      | _ => none := by
  cases form with
  | integer ht hform =>
    have htag : tag.textFamily? = none := by cases hform <;> rfl
    rw [htag]
    cases t <;> cases ht <;> rfl
  | atom htag => exact htag
  | text => rfl
  | tuple hw => cases tag <;> cases hw <;> rfl
  | list => rfl

theorem gives_textTagged_written (form : WrittenForm t tag body) (ht : t.Encodable)
    (h : t.Within (L.inside d)) :
    Gives AnyError (textTagged tag.byte) L d body t.asText? := by
  have hfamily := textFamily?_of_writtenForm form
  cases form with
  | integer hn hform =>
    cases t <;> cases hn <;>
      · rw [textTagged_of_no_family hfamily]
        exact fails_any_throw
  | atom htag hw hs =>
    rw [textTagged_of_width hw]
    exact gives_sized_within hs h.payload_le
  | text hs =>
    rw [textTagged_of_width rfl]
    exact gives_sized_within hs h.payload_le
  | tuple hw =>
    rw [textTagged_of_no_family hfamily]
    exact fails_any_throw
  | @list ts hlen =>
    obtain ⟨hn, hd, hts⟩ := Term.within_list_iff.1 h
    have hpayload (u : Term) (hu : u ∈ ts) : u.payload ≤ L.maxPayload :=
      (hts u hu).payload_le
    rw [textTagged, Tag.ofByte?_byte]
    exact gives_characters (Term.encodable_list_iff.1 ht).2 hlen hn hpayload

theorem gives_taggedTextTagged_written (form : WrittenForm t tag body) (ht : t.Encodable)
    (h : t.Within (L.inside d)) :
    Gives AnyError (taggedTextTagged tag.byte) L d body
      (t.asText?.map fun s => ⟨s, t.family⟩) := by
  have hr := (gives_textTagged_written form ht h).map fun s => TaggedText.mk s t.family
  rw [taggedTextTagged, Tag.ofByte?_byte, Option.bind_some, textFamily?_of_writtenForm form]
  cases t with
  | atom | text | list => exact hr
  | int | bigInt | tuple => exact fails_any_throw

end

/-! ## Shapes -/

section
variable {L : Limits}

/-- A shape at which the projection of every term is what is read. -/
def Projects (L : Limits) (s : Shape) : Prop :=
  ∀ (t : Term) (d : Nat), t.Encodable → t.Within (L.inside d) →
    Gives AnyError (shaped s) L d t.encoded (s.project? t)

theorem gives_shapedFields {fields : List (Field Shape)} {ts : List Term} {d : Nat}
    (h : ∀ f ∈ fields, Projects L f.value) (hts : ∀ t ∈ ts, t.Encodable)
    (hw : ∀ t ∈ ts, t.Within (L.inside d)) (hlen : ts.length = fields.length) :
    Gives AnyError (shapedFields fields) L d (Term.allEncoded ts)
      (Shape.projectFields? fields ts) := by
  induction fields generalizing ts with
  | nil =>
    obtain rfl := List.eq_nil_of_length_eq_zero hlen
    exact Reads.pure []
  | cons f fields ih =>
    obtain ⟨name, shape⟩ := f
    cases ts with
    | nil => cases hlen
    | cons t ts =>
      rw [List.forall_mem_cons] at h hts hw
      have hr := ih h.2 hts.2 hw.2 (Nat.succ.inj hlen)
      rw [shapedFields, Shape.projectFields?, Term.allEncoded]
      exact (h.1 t d hts.1 hw.1).bind fun value _ => hr.map fun values => ⟨name, value⟩ :: values

theorem projectFields?_of_length {fields : List (Field Shape)} {ts : List Term}
    (h : ts.length ≠ fields.length) : Shape.projectFields? fields ts = none := by
  induction fields generalizing ts with
  | nil =>
    cases ts with
    | nil => exact absurd rfl h
    | cons t ts => rfl
  | cons f fields ih =>
    cases ts with
    | nil => rfl
    | cons t ts =>
      rw [Shape.projectFields?, ih fun hlen => h (congrArg Nat.succ hlen)]
      cases Shape.project? f.value t <;> rfl

theorem projects_integer {w : Width} (h : w ≠ .w8) : Projects L (.integer w) := by
  intro t d ht hw
  have hr := (gives_integer_encoded (d := d) ht hw.payload_le w).map
    Decoded.integer
  have hs : shaped (.integer w) = integer w >>= fun n => pure (.integer n) := by
    cases w <;> first | exact absurd rfl h | rfl
  rw [hs, Shape.project?]
  cases hn : t.integer? with
  | none =>
    rw [hn] at hr
    exact hr
  | some n =>
    rw [hn, Option.bind_some] at hr
    rw [Option.bind_some]
    by_cases hf : w.Fits n
    · rw [if_pos hf] at hr ⊢
      exact hr
    · rw [if_neg hf] at hr ⊢
      exact hr

theorem projects_record {fields : List (Field Shape)} (h : ∀ f ∈ fields, Projects L f.value) :
    Projects L (.record fields) := by
  intro t d ht hw
  obtain ⟨tag, body, hb, form⟩ := exists_writtenForm ht
  rw [hb, shaped]
  refine Gives.byte_bind ?_
  by_cases htag : tag.tupleWidth? = none
  · have hp : Shape.project? (.record fields) t = none := by
      cases form with
      | @tuple _ _ w hw => rw [hw] at htag; cases htag
      | @integer t _ _ _ hn => cases t <;> cases hn <;> rfl
      | _ => rfl
    rw [hp, tupleArity_of_no_width htag]
    exact Fails.bind fails_any_throw
  · cases form with
    | integer _ hform => cases hform <;> exact absurd rfl htag
    | atom hfam => cases tag <;> first | cases hfam; done | exact absurd rfl htag
    | text => exact absurd rfl htag
    | list => exact absurd rfl htag
    | @tuple ts _ w hwidth hlen =>
      obtain ⟨hn, hd, hts⟩ := Term.within_tuple_iff.1 hw
      rw [tupleArity_of_width hwidth]
      refine Reads.gives_bind (reads_count_iff.2 ⟨hlen, hn, rfl⟩) ?_
      by_cases hf : ts.length = fields.length
      · rw [if_neg (not_not_intro hf)]
        have hr := gives_shapedFields h (Term.encodable_tuple_iff.1 ht).2 hts hf
        exact (Gives.nested hd hr).map Decoded.record
      · rw [if_pos hf, Shape.project?, projectFields?_of_length hf]
        exact fails_any_throw

theorem projects_list {element : Shape} (h : Projects L element) :
    Projects L (.list element) := by
  intro t d ht hw
  obtain ⟨tag, body, hb, form⟩ := exists_writtenForm ht
  rw [hb, shaped]
  refine Gives.byte_bind ?_
  rw [Tag.ofByte?_byte]
  cases form with
  | @integer t _ _ _ hn hform =>
    have hp : Shape.project? (.list element) t = none := by cases t <;> cases hn <;> rfl
    rw [hp]
    cases hform <;> exact fails_any_throw
  | atom hfam => cases tag <;> first | cases hfam; done | exact fails_any_throw
  | text => exact fails_any_throw
  | tuple hwidth => cases tag <;> first | cases hwidth; done | exact fails_any_throw
  | @list ts hlen =>
    obtain ⟨hn, hd, hts⟩ := Term.within_list_iff.1 hw
    have hr := gives_repeated fun u hu =>
      h u (d + 1) ((Term.encodable_list_iff.1 ht).2 u hu) (hts u hu)
    rw [← Term.allEncoded_eq_flatMap] at hr
    refine Reads.gives_bind (reads_listCount_iff.2 ⟨hlen, hn, rfl⟩) ?_
    exact gives_closed (Gives.nested hd hr) Decoded.list

theorem projects_any : Projects L .any := by
  intro t d ht hw
  have hr : Gives DecodeError.IsLimit term L d t.encoded _ := gives_term t ht d
  rw [if_pos hw] at hr
  have hr : Gives AnyError term L d t.encoded (some t.normalize) := hr
  rw [shaped, Shape.project?]
  exact hr.map Decoded.term

theorem gives_shaped (s : Shape) (hs : s.check = .ok ()) : Projects L s := by
  induction s using Shape.induct with
  | integer w =>
    refine projects_integer ?_
    rintro rfl
    cases hs
  | unsigned w => cases hs
  | bigInteger =>
    intro t d ht hw
    obtain ⟨tag, body, hb, form⟩ := exists_writtenForm ht
    rw [hb, shaped]
    exact (Gives.byte_bind (gives_integer_written form hw.payload_le)).map
      Decoded.bigInteger
  | text =>
    intro t d ht hw
    obtain ⟨tag, body, hb, form⟩ := exists_writtenForm ht
    rw [hb, shaped]
    exact (Gives.byte_bind (gives_textTagged_written form ht hw)).map Decoded.text
  | taggedText =>
    intro t d ht hw
    obtain ⟨tag, body, hb, form⟩ := exists_writtenForm ht
    have hr := (gives_taggedTextTagged_written form ht hw).map Decoded.tagged
    rw [Option.map_map] at hr
    rw [hb, shaped]
    exact Gives.byte_bind hr
  | record fields ih =>
    rw [Shape.check] at hs
    exact projects_record fun f hf => ih f hf (Shape.check_of_mem hs hf)
  | list element ih => exact projects_list (ih hs)
  | any => exact projects_any

/-- Reading what was written for a term against a shape, whatever follows it: the projection of the
term comes back, and nothing when there is none. The bound holds of all bytes in a machine. -/
theorem shaped_of_written {s : Shape} {t : Term} {bytes : List UInt8} (hs : s.check = .ok ())
    (ht : t.written = .ok bytes) (hlen : bytes.length ≤ Limits.lengthBound) (rest : List UInt8)
    (v : Decoded) (r : Reader) :
    shaped s (fresh .unbounded (bytes ++ rest)) = .ok v r ↔
      s.project? t = some v ∧ r = memory .unbounded 0 bytes.length rest := by
  obtain ⟨henc, rfl⟩ := written_eq_ok_iff.1 ht
  have hr : Projects .unbounded s := gives_shaped s hs
  exact (hr t 0 henc (Term.within_unbounded henc hlen)).ok_iff rest

theorem shaped_of_written_record :
    (Term.tuple [.bigInt 7, .list [.int 104]]).written =
      .ok [104, 2, 97, 7, 108, 0, 0, 0, 1, 97, 104, 106] ∧
    shaped (.record [⟨some "n", .integer .w16⟩, ⟨none, .text⟩])
        (fresh .unbounded [104, 2, 97, 7, 108, 0, 0, 0, 1, 97, 104, 106, 131]) =
      .ok (.record [⟨some "n", .integer 7⟩, ⟨none, .text "h"⟩]) (memory .unbounded 0 12 [131]) := by
  have h : (Term.tuple [.bigInt 7, .list [.int 104]]).written =
      .ok [104, 2, 97, 7, 108, 0, 0, 0, 1, 97, 104, 106] := written_eq_ok_iff.2 ⟨rfl, rfl⟩
  exact ⟨h, (shaped_of_written rfl h (by decide) [131] _ _).2 ⟨rfl, rfl⟩⟩

end

end Reader

end ExternalTerm
