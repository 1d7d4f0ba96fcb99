import ExternalTerm.Proofs.Forms

/-!
# The bytes that are read against a shape

* `Shape.induct` : induction over shapes;
* `composed_shaped` : reading against a shape is built from parts;
* `reads_shaped_*_iff` : which bytes are read to which value, for each shape that has parts or
  several forms.
-/

namespace ExternalTerm

namespace Shape

@[elab_as_elim]
theorem induct {P : Shape → Prop} (s : Shape) (integer : ∀ w, P (.integer w))
    (unsigned : ∀ w, P (.unsigned w)) (bigInteger : P .bigInteger) (text : P .text)
    (taggedText : P .taggedText)
    (record : ∀ fields, (∀ f ∈ fields, P f.value) → P (.record fields))
    (list : ∀ element, P element → P (.list element)) (any : P .any) : P s :=
  @Shape.rec P (fun fields => ∀ f ∈ fields, P f.value) (fun f => P f.value) integer unsigned
    bigInteger text taggedText record list any (fun _ h => nomatch h)
    (fun _ _ hf hfs => List.forall_mem_cons.2 ⟨hf, hfs⟩) (fun _ _ h => h) s

theorem check_of_mem {fields : List (Field Shape)} (h : checkFields fields = .ok ())
    {f : Field Shape} (hf : f ∈ fields) : f.value.check = .ok () := by
  induction fields with
  | nil => cases hf
  | cons g fields ih =>
    rw [checkFields] at h
    cases hg : g.value.check with
    | error e =>
      rw [hg] at h
      cases h
    | ok u =>
      rw [hg] at h
      rcases List.mem_cons.1 hf with rfl | hf
      · exact hg
      · exact ih h hf

end Shape

namespace Reader

/-! ## Built from parts -/

def recordBody (fields : List (Field Shape)) (arity : Nat) : ReadM Decoded :=
  if arity ≠ fields.length then
    throw (.arityMismatch fields.length arity)
  else do
    let values ← nested (shapedFields fields)
    return .record values

def listBody (element : Shape) (tag : UInt8) : ReadM Decoded :=
  match Tag.ofByte? tag with
  | some .nil => pure (.list [])
  | some .string => byteElements element
  | some .list => do
    let count ← listCount
    let elements ← nested (repeated count (shaped element))
    nil
    return .list elements
  | _ => throw (.unexpectedTag tag .list)

theorem shaped_record (fields : List (Field Shape)) :
    shaped (.record fields) = byte >>= fun tag => tupleArity tag >>= recordBody fields := by
  rw [shaped]
  rfl

theorem shaped_list (element : Shape) : shaped (.list element) = byte >>= listBody element := by
  rw [shaped]
  rfl

theorem Sequential.shapedFields {P : ∀ {α : Type}, ReadM α → Prop} (hP : Sequential P)
    {fields : List (Field Shape)} (h : ∀ f ∈ fields, P (shaped f.value)) :
    P (Reader.shapedFields fields) := by
  induction fields with
  | nil => exact hP.pure _
  | cons f fields ih =>
    obtain ⟨hf, hfs⟩ := List.forall_mem_cons.1 h
    exact hP.bind hf fun value => hP.map (ih hfs) _

namespace Compositional
variable {P : ∀ {α : Type}, ReadM α → Prop} (hP : Compositional P)
include hP

theorem recordBody {fields : List (Field Shape)} (h : P (nested (shapedFields fields)))
    (arity : Nat) : P (Reader.recordBody fields arity) :=
  hP.refuse trivial (hP.map h _)

theorem listBody {element : Shape} (h : ∀ n, P (nested (repeated n (shaped element))))
    (tag : UInt8) : P (Reader.listBody element tag) := by
  unfold Reader.listBody
  split
  · exact hP.pure _
  · exact hP.byteElements element
  · exact hP.bind hP.listCount fun n => hP.bind (h n) fun _ => hP.map hP.nil _
  · exact hP.throw trivial

end Compositional

theorem composed_recordBody {fields : List (Field Shape)}
    (h : ∀ f ∈ fields, Composed (shaped f.value)) (n : Nat) : Composed (recordBody fields n) :=
  composed.recordBody (composed.shapedFields h).nested n

theorem composed_listBody {element : Shape} (h : Composed (shaped element)) (b : UInt8) :
    Composed (listBody element b) :=
  composed.listBody (composed_elements h) b

theorem composed_shaped (s : Shape) : Composed (shaped s) := by
  induction s using Shape.induct with
  | integer w =>
    cases w with
    | w8 => exact .throw not_false
    | _ => exact (composed.integer _).map _
  | unsigned w => exact .throw not_false
  | bigInteger => exact composed.bigInteger.map _
  | text => exact (composed.byte.bind composed.textTagged).map _
  | taggedText => exact composed.byte.bind fun b => (composed.taggedTextTagged b).map _
  | record fields ih =>
    rw [shaped_record]
    exact composed.byte.bind fun b => (composed.tupleArity b).bind (composed_recordBody ih)
  | list element ih =>
    rw [shaped_list]
    exact composed.byte.bind (composed_listBody ih)
  | any => exact composed_term.map _

/-! ## What is read -/

section
variable {L : Limits} {d : Nat} {data : List UInt8} {v : Decoded} {element : Shape}
  {fields : List (Field Shape)}

theorem shaped_integer {w : Width} (h : w ≠ .w8) :
    shaped (.integer w) = integer w >>= fun n => pure (.integer n) := by
  cases w with
  | w8 => exact absurd rfl h
  | _ => rfl

theorem reads_shapedFields_cons_iff {name : Option String} {s : Shape}
    {values : List (Field Decoded)} :
    Reads (shapedFields (⟨name, s⟩ :: fields)) L d data values ↔
      ∃ x v y vs, data = x ++ y ∧ values = ⟨name, v⟩ :: vs ∧ Reads (shaped s) L d x v ∧
        Reads (shapedFields fields) L d y vs := by
  have hfields : Composed (shapedFields fields) :=
    composed.shapedFields fun f _ => composed_shaped f.value
  rw [shapedFields, reads_bind_iff (composed_shaped s) fun _ => hfields.map _]
  simp only [reads_map_iff hfields]
  constructor
  · rintro ⟨x, v, y, rfl, hx, vs, rfl, hy⟩
    exact ⟨x, v, y, vs, rfl, rfl, hx, hy⟩
  · rintro ⟨x, v, y, vs, rfl, rfl, hx, hy⟩
    exact ⟨x, v, y, rfl, hx, vs, rfl, hy⟩

theorem tupleArity_of_no_tag {t : UInt8} (h : Tag.ofByte? t = none) :
    tupleArity t = throw (.unexpectedTag t .tuple) := by
  rw [tupleArity, h]
  exact throw_bind _ _

/-- A record is read from a tuple with as many elements as there are fields. -/
theorem reads_shaped_record_iff :
    Reads (shaped (.record fields)) L d data v ↔
      ∃ (tag : Tag) (w : Nat) (body : List UInt8) (values : List (Field Decoded)),
        tag.tupleWidth? = some w ∧ fields.length < 256 ^ w ∧ fields.length ≤ L.maxElements ∧
        d < L.maxDepth ∧ v = .record values ∧ Reads (shapedFields fields) L (d + 1) body values ∧
        data = tag.byte :: (Digits.bigEndian w fields.length ++ body) := by
  have hvalues (f : Field Shape) (_ : f ∈ fields) : Composed (shaped f.value) := composed_shaped _
  have hfields : Composed (shapedFields fields) := composed.shapedFields hvalues
  have hbody (n : Nat) : Composed (recordBody fields n) := composed_recordBody hvalues n
  rw [shaped_record, reads_tag_bind_iff (fun t => (composed.tupleArity t).bind hbody) fun t ht =>
    ⟨_, by rw [tupleArity_of_no_tag ht, throw_bind]⟩]
  simp only [reads_bind_iff (composed.tupleArity _) hbody, reads_tupleArity_iff]
  constructor
  · rintro ⟨tag, _, rfl, _, n, body, rfl, ⟨w, hw, hlt, hl, rfl⟩, h⟩
    unfold recordBody at h
    split at h
    · exact absurd h not_reads_throw
    next hn =>
      obtain rfl := Decidable.not_not.1 hn
      obtain ⟨values, rfl, hnested⟩ := (reads_map_iff hfields.nested _).1 h
      obtain ⟨hd, hvalues⟩ := (reads_nested_iff hfields).1 hnested
      exact ⟨tag, w, body, values, hw, hlt, hl, hd, rfl, hvalues, rfl⟩
  · rintro ⟨tag, w, body, values, hw, hlt, hl, hd, rfl, hvalues, rfl⟩
    refine ⟨tag, _, rfl, _, fields.length, body, rfl, ⟨w, hw, hlt, hl, rfl⟩, ?_⟩
    rw [recordBody, if_neg (not_not_intro rfl)]
    exact (reads_map_iff hfields.nested _).2 ⟨values, rfl, hvalues.nested hd⟩

/-- What follows the tag of a list of elements of a shape, and the list. -/
inductive ListForm (L : Limits) (d : Nat) (element : Shape) :
    Tag → List UInt8 → List Decoded → Prop
  | nil : ListForm L d element .nil [] []
  | string {ofByte : UInt8 → Decoded} {bytes : List UInt8} (h : byteElement? element = some ofByte)
      (hlt : bytes.length < 256 ^ 2) (hl : bytes.length ≤ L.maxPayload) :
      ListForm L d element .string (Digits.bigEndian 2 bytes.length ++ bytes) (bytes.map ofByte)
  | list {body : List UInt8} {vs : List Decoded} (hlt : vs.length < 256 ^ 4)
      (hl : vs.length ≤ L.maxElements) (hd : d < L.maxDepth)
      (h : Reads (repeated vs.length (shaped element)) L (d + 1) body vs) :
      ListForm L d element .list (Digits.bigEndian 4 vs.length ++ (body ++ [Tag.nil.byte])) vs

theorem reads_byteElements_iff :
    Reads (byteElements element) L d data v ↔
      ∃ vs, v = .list vs ∧ ListForm L d element .string data vs := by
  unfold byteElements
  cases ho : byteElement? element with
  | none =>
    refine ⟨fun h => absurd h not_reads_throw, ?_⟩
    rintro ⟨vs, -, h⟩
    cases h with
    | string h => cases ho.symm.trans h
  | some ofByte =>
    refine reads_shortRun_iff.trans ⟨?_, ?_⟩
    · rintro ⟨bytes, hlt, hl, rfl, rfl⟩
      exact ⟨_, rfl, .string ho hlt hl⟩
    · rintro ⟨vs, rfl, h⟩
      cases h with
      | string h hlt hl =>
        cases ho.symm.trans h
        exact ⟨_, hlt, hl, rfl, rfl⟩

theorem reads_listBody_iff {tag : Tag} :
    Reads (listBody element tag.byte) L d data v ↔
      ∃ vs, v = .list vs ∧ ListForm L d element tag data vs := by
  have helement : Composed (shaped element) := composed_shaped element
  rw [listBody, Tag.ofByte?_byte]
  cases tag with
  | nil =>
    refine reads_pure_iff.trans ⟨?_, ?_⟩
    · rintro ⟨rfl, rfl⟩
      exact ⟨[], rfl, .nil⟩
    · rintro ⟨vs, rfl, h⟩
      cases h
      exact ⟨rfl, rfl⟩
  | string => exact reads_byteElements_iff
  | list =>
    refine (reads_counted_iff fun n => (helement.repeated n).nested).trans ⟨?_, ?_⟩
    · rintro ⟨n, body, vs, hlt, hl, rfl, h, rfl⟩
      obtain ⟨hd, hvs⟩ := (reads_nested_iff (helement.repeated n)).1 h
      obtain rfl := length_of_reads_repeated helement hvs
      exact ⟨vs, rfl, .list hlt hl hd hvs⟩
    · rintro ⟨vs, rfl, h⟩
      cases h with
      | list hlt hl hd hvs => exact ⟨_, _, vs, hlt, hl, rfl, hvs.nested hd, rfl⟩
  | _ =>
    refine ⟨fun h => absurd h not_reads_throw, ?_⟩
    rintro ⟨vs, -, h⟩
    cases h

theorem reads_shaped_list_iff :
    Reads (shaped (.list element)) L d data v ↔
      ∃ tag body vs, data = Tag.byte tag :: body ∧ v = .list vs ∧
        ListForm L d element tag body vs := by
  rw [shaped_list, reads_tag_bind_iff (composed_listBody (composed_shaped element)) fun t ht =>
    ⟨.unexpectedTag t .list, by rw [listBody, ht]⟩]
  simp only [reads_listBody_iff, exists_and_left]

theorem reads_shaped_taggedText_iff :
    Reads (shaped .taggedText) L d data v ↔
      ∃ (tag : Tag) (body : List UInt8) (t : TaggedText), data = tag.byte :: body ∧
        v = .tagged t ∧ tag.textFamily? = some t.family ∧ TextForm L d tag body t.value := by
  rw [shaped, reads_tag_bind_iff (fun b => (composed.taggedTextTagged b).map _) fun t ht =>
    ⟨.unexpectedTag t .taggedText, by rw [taggedTextTagged, ht]; rfl⟩]
  simp only [reads_map_iff (composed.taggedTextTagged _), reads_taggedTextTagged_iff,
    exists_and_left]

end

end Reader

end ExternalTerm
