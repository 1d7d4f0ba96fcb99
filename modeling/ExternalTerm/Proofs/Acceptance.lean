import ExternalTerm.Proofs.Elements
import ExternalTerm.Proofs.Projection

/-!
# What a shape without texts accepts

A term that is something of a shape can be read against the shape from whatever bytes the term was
read from, under the same limits.

* `Shape.TextFree` : the shapes that have no text in them;
* `Shape.EmptyString` : the one form of a list that some of them do not accept;
* `settlesAll_of_textFree` : bytes of a term that has a value as something of such a shape are read
  to this value, or refused for an empty string.

The last theorem says the same of a new reader.
-/

namespace ExternalTerm

open Reader

namespace Shape

/-- The shape consists of parts that are accepted and are no texts. -/
inductive TextFree : Shape → Prop
  | integer {w : Width} (h : w ≠ .w8) : TextFree (.integer w)
  | bigInteger : TextFree .bigInteger
  | record {fields : List (Field Shape)} (h : ∀ f ∈ fields, TextFree f.value) :
      TextFree (.record fields)
  | list {element : Shape} (h : TextFree element) : TextFree (.list element)
  | any : TextFree .any

/-- Somewhere the bytes have a string of no bytes where the shape has a list of what a byte cannot
be. -/
inductive EmptyString : Shape → List UInt8 → Prop
  | list {element : Shape} (h : byteElement? element = none) :
      EmptyString (.list element) [Tag.string.byte, 0, 0]
  | element {element : Shape} {parts : List (List UInt8)} {data x : List UInt8}
      (h : Elements parts data) (hx : x ∈ parts) (he : EmptyString element x) :
      EmptyString (.list element) data
  | field {fields : List (Field Shape)} {parts : List (List UInt8)} {data x : List UInt8}
      {f : Field Shape} (h : Elements parts data) (hx : (f, x) ∈ fields.zip parts)
      (he : EmptyString f.value x) : EmptyString (.record fields) data

section
variable {element : Shape} {fields : List (Field Shape)} {parts : List (List UInt8)}
  {data body : List UInt8} {tag : Tag}

theorem not_emptyString_record_iff (h : Elements parts data) :
    ¬ EmptyString (.record fields) data ↔
      ∀ p ∈ fields.zip parts, ¬ EmptyString p.1.value p.2 := by
  constructor
  · intro hne p hp he
    exact hne (.field h hp he)
  · rintro hall (_ | _ | ⟨h', hx, he⟩)
    obtain rfl := h'.unique h
    exact hall _ hx he

theorem not_emptyString_list_iff (h : Elements parts (Tag.list.byte :: body)) :
    ¬ EmptyString (.list element) (Tag.list.byte :: body) ↔
      ∀ x ∈ parts, ¬ EmptyString element x := by
  constructor
  · intro hne x hx he
    exact hne (.element h hx he)
  · rintro hall (_ | ⟨h', hx, he⟩)
    obtain rfl := h'.unique h
    exact hall _ hx he

/-- Other than with the string of no bytes itself, only elements matter. -/
theorem not_emptyString_list (htag : tag.tupleWidth? = none) (hlist : tag ≠ .list)
    (hs : byteElement? element = none → tag.byte :: body ≠ [Tag.string.byte, 0, 0]) :
    ¬ EmptyString (.list element) (tag.byte :: body) := by
  generalize hd : tag.byte :: body = data at hs
  rintro (h | ⟨h, -⟩)
  · exact hs h rfl
  · rcases (hd ▸ h).tag_eq with hw | hl
    · exact hw htag
    · exact hlist hl

end

end Shape

namespace Reader

open Shape

section
variable {L : Limits} {d : Nat} {data : List UInt8} {t : Term} {v : Decoded} {element : Shape}
  {fields : List (Field Shape)} {parts : List (List UInt8)} {ts : List Term}

/-- The error says that a string came where the elements are records or lists. -/
def StringRefused (e : DecodeError) : Prop :=
  ∃ kind ∈ [Kind.record, Kind.list], e = .unexpectedTag Tag.string.byte kind

theorem reads_bigInteger_of_term {n : Int} {d' : Nat} (h : Reads term L d data t)
    (ht : t.integer? = some n) : Reads bigInteger L d' data n := by
  obtain ⟨tag, body, rfl, form⟩ := reads_term_form_iff.1 h
  cases form with
  | integer hform hl =>
    rw [integer?_ofInteger] at ht
    cases ht
    exact reads_bigInteger_iff.2 ⟨tag, body, rfl, hform, hl⟩
  | _ => cases ht

theorem byteElement?_of_textFree (hs : TextFree element) (h : byteElement? element = none) :
    element.kind ∈ [Kind.record, Kind.list] := by
  cases hs with
  | integer | bigInteger | any => cases h
  | record | list => simp [kind]

open scoped Classical in
/-- The bytes are read to the value against the shape, or refused for an empty string. -/
def Settles (s : Shape) (L : Limits) (d : Nat) (data : List UInt8) (v : Decoded) : Prop :=
  Gives StringRefused (shaped s) L d data (if ¬ EmptyString s data then some v else none)

def SettlesAll (L : Limits) (s : Shape) : Prop :=
  ∀ (d : Nat) (data : List UInt8) (t : Term) (v : Decoded), Reads term L d data t →
    s.project? t = some v → Settles s L d data v

theorem settles_of_gives {s : Shape} {c : Prop} [Decidable c] (hc : ¬ EmptyString s data ↔ c)
    (h : Gives StringRefused (shaped s) L d data (if c then some v else none)) :
    Settles s L d data v := by
  unfold Settles
  simpa only [hc] using h

theorem settles_of_reads {s : Shape} (h : ¬ EmptyString s data) (hr : Reads (shaped s) L d data v) :
    Settles s L d data v := by
  unfold Settles
  rw [if_pos h]
  exact hr

/-! ## Integers -/

theorem settlesAll_integer {w : Width} (h : w ≠ .w8) : SettlesAll L (.integer w) := by
  intro d data t v hr hp
  obtain ⟨n, ht, hp⟩ := Option.bind_eq_some_iff.1 hp
  obtain ⟨hn, hv⟩ := Option.ite_none_right_eq_some.1 hp
  refine settles_of_reads nofun ?_
  rw [shaped_integer h]
  exact (reads_map_iff (composed.integer w) _).2
    ⟨_, (Option.some.inj hv).symm, reads_integer_iff.2 ⟨n, hn, rfl, reads_bigInteger_of_term hr ht⟩⟩

theorem settlesAll_bigInteger : SettlesAll L .bigInteger := by
  intro d data t v hr hp
  obtain ⟨n, ht, rfl⟩ := Option.map_eq_some_iff.1 hp
  refine settles_of_reads nofun ?_
  exact (reads_map_iff composed.bigInteger _).2 ⟨n, rfl, reads_bigInteger_of_term hr ht⟩

theorem settlesAll_any : SettlesAll L .any := by
  intro d data t v hr hp
  cases hp
  refine settles_of_reads nofun ((reads_map_iff composed_term _).2 ⟨t, ?_, hr⟩)
  rw [(wire_of_reads hr).normalize]

/-! ## Records -/

open scoped Classical in
theorem gives_fields_of_reads {values : List (Field Decoded)}
    (h : ∀ f ∈ fields, SettlesAll L f.value) (hr : List.Forall₂ (Reads term L d) parts ts)
    (hp : projectFields? fields ts = some values) :
    Gives StringRefused (shapedFields fields) L d parts.flatten
      (if ∀ p ∈ fields.zip parts, ¬ EmptyString p.1.value p.2 then some values else none) := by
  induction hr generalizing fields values with
  | nil =>
    cases fields with
    | nil =>
      cases hp
      exact Reads.pure []
    | cons => cases hp
  | @cons x t parts ts hx _ ih =>
    cases fields with
    | nil => cases hp
    | cons f fields =>
      obtain ⟨name, s⟩ := f
      obtain ⟨v, hv, hp⟩ := Option.bind_eq_some_iff.1 hp
      obtain ⟨vs, hvs, rfl⟩ := Option.map_eq_some_iff.1 hp
      obtain ⟨hs, hfields⟩ := List.forall_mem_cons.1 h
      have hrest := (ih hfields hvs).map fun vs => ⟨name, v⟩ :: vs
      rw [Option.map_if] at hrest
      rw [shapedFields, List.flatten_cons]
      simp only [List.zip_cons_cons, List.forall_mem_cons]
      exact (hs d x t v hx hv).bind_ite fun _ => hrest

open scoped Classical in
theorem settlesAll_record (h : ∀ f ∈ fields, SettlesAll L f.value) :
    SettlesAll L (.record fields) := by
  intro d data t v hr hp
  obtain ⟨tag, body, rfl, form⟩ := reads_term_form_iff.1 hr
  cases form with
  | @tuple _ w parts ts hw hn hl hd hparts =>
    obtain ⟨values, hvalues, rfl⟩ := Option.map_eq_some_iff.1 hp
    have hlen : ts.length = fields.length := by
      by_contra hne
      rw [projectFields?_of_length hne] at hvalues
      cases hvalues
    have helements : Elements parts (tag.byte :: (Digits.bigEndian w ts.length ++ parts.flatten)) :=
      .tuple hw hn (hparts.imp fun _ _ => wire_of_reads)
    have hfields := gives_fields_of_reads h hparts hvalues
    have hrecord := (hfields.nested hd).map Decoded.record
    rw [Option.map_if] at hrecord
    refine settles_of_gives (not_emptyString_record_iff helements) ?_
    rw [shaped_record]
    refine Gives.byte_bind (Reads.gives_bind (reads_tupleArity_iff.2 ⟨w, hw, hn, hl, rfl⟩) ?_)
    rw [recordBody, if_neg (not_not_intro hlen)]
    exact hrecord
  | @integer _ _ n =>
    unfold Term.ofInteger at hp
    split at hp <;> cases hp
  | _ => cases hp

/-! ## Lists -/

open scoped Classical in
theorem gives_repeated_of_reads {vs : List Decoded} (h : SettlesAll L element)
    (hr : List.Forall₂ (Reads term L d) parts ts) (hp : ts.mapM element.project? = some vs) :
    Gives StringRefused (repeated ts.length (shaped element)) L d parts.flatten
      (if ∀ x ∈ parts, ¬ EmptyString element x then some vs else none) := by
  induction hr generalizing vs with
  | nil =>
    cases hp
    exact Reads.pure []
  | @cons x t parts ts hx _ ih =>
    rw [List.mapM_cons] at hp
    obtain ⟨v, hv, hp⟩ := Option.bind_eq_some_iff.1 hp
    obtain ⟨vs, hvs, hp⟩ := Option.bind_eq_some_iff.1 hp
    cases hp
    have hrest := (ih hvs).map (v :: ·)
    rw [Option.map_if] at hrest
    rw [List.length_cons, repeated_succ, List.flatten_cons]
    simp only [List.forall_mem_cons]
    exact (h d x t v hx hv).bind_ite fun _ => hrest

/-- A byte is something of a shape exactly when it can be an element of a list of that shape. -/
theorem project?_byte (hs : TextFree element) (b : UInt8) :
    element.project? (.ofInteger b.toNat) = (byteElement? element).map fun f => f b := by
  cases hs with
  | @integer w hw =>
    rw [project?, integer?_ofInteger, Option.bind_some, if_pos (Width.fits_byte hw b)]
    rfl
  | bigInteger =>
    rw [project?, integer?_ofInteger]
    rfl
  | record | list =>
    rw [ofInteger_byte]
    rfl
  | any =>
    rw [ofInteger_byte]
    rfl

theorem mapM_project?_bytes (hs : TextFree element) (bytes : List UInt8) :
    (bytes.map fun b => Term.ofInteger b.toNat).mapM element.project? =
      bytes.mapM fun b => (byteElement? element).map fun f => f b := by
  rw [List.mapM_map]
  simp only [Function.comp_def, project?_byte hs]

/-- A string is read when bytes can be elements. When they cannot, it has none. -/
theorem settles_string {bytes : List UInt8} {vs : List Decoded} (hs : TextFree element)
    (hlt : bytes.length < 256 ^ 2) (hl : bytes.length ≤ L.maxPayload)
    (hp : (bytes.map fun b => Term.ofInteger b.toNat).mapM element.project? = some vs) :
    Settles (.list element) L d
      (Tag.string.byte :: (Digits.bigEndian 2 bytes.length ++ bytes)) (.list vs) := by
  rw [mapM_project?_bytes hs] at hp
  cases he : byteElement? element with
  | some f =>
    simp only [he, Option.map_some] at hp
    obtain rfl : bytes.map f = vs := Option.some.inj (List.mapM_pure.symm.trans hp)
    refine settles_of_reads (not_emptyString_list rfl nofun fun h => ?_) ?_
    · rw [he] at h
      cases h
    · exact reads_shaped_list_iff.2 ⟨_, _, _, rfl, rfl, .string he hlt hl⟩
  | none =>
    obtain rfl : bytes = [] := by
      cases bytes with
      | nil => rfl
      | cons b bytes =>
        rw [List.mapM_cons, he] at hp
        cases hp
    have hempty : EmptyString (.list element) 
        (Tag.string.byte :: (Digits.bigEndian 2 ([] : List UInt8).length ++ [])) := .list he
    unfold Settles
    rw [if_neg (not_not_intro hempty), shaped_list]
    refine Gives.byte_bind ?_
    rw [listBody, Tag.ofByte?_byte, byteElements, he]
    exact fails_throw ⟨_, byteElement?_of_textFree hs he, rfl⟩

open scoped Classical in
theorem settlesAll_list (hs : TextFree element) (h : SettlesAll L element) :
    SettlesAll L (.list element) := by
  intro d data t v hr hp
  obtain ⟨tag, body, rfl, form⟩ := reads_term_form_iff.1 hr
  cases form with
  | @string bytes hlt hl =>
    rw [byteList_eq] at hp
    obtain ⟨vs, hvs, rfl⟩ := Option.map_eq_some_iff.1 hp
    exact settles_string hs hlt hl hvs
  | nil =>
    cases hp
    refine settles_of_reads (not_emptyString_list rfl nofun nofun) ?_
    exact reads_shaped_list_iff.2 ⟨_, _, [], rfl, rfl, .nil⟩
  | @list parts ts hn hl hd hparts =>
    obtain ⟨vs, hvs, rfl⟩ := Option.map_eq_some_iff.1 hp
    have helements : Elements parts
        (Tag.list.byte :: (Digits.bigEndian 4 ts.length ++ (parts.flatten ++ [Tag.nil.byte]))) :=
      .list hn (hparts.imp fun _ _ => wire_of_reads)
    have hlist := gives_closed ((gives_repeated_of_reads h hparts hvs).nested hd) Decoded.list
    rw [Option.map_if] at hlist
    refine settles_of_gives (not_emptyString_list_iff helements) ?_
    rw [shaped_list]
    refine Gives.byte_bind ?_
    rw [listBody, Tag.ofByte?_byte]
    exact Reads.gives_bind (reads_listCount_iff.2 ⟨hn, hl, rfl⟩) hlist
  | @integer _ _ n =>
    unfold Term.ofInteger at hp
    split at hp <;> cases hp
  | _ => cases hp

theorem settlesAll_of_textFree {s : Shape} (hs : TextFree s) : SettlesAll L s := by
  induction hs with
  | integer h => exact settlesAll_integer h
  | bigInteger => exact settlesAll_bigInteger
  | record _ ih => exact settlesAll_record ih
  | list hs ih => exact settlesAll_list hs ih
  | any => exact settlesAll_any

/-- Where reading any term gives a term that has a value as something of the shape, reading against
the shape under the same limits gives this value from the same bytes, whatever forms these have.
Only where the shape has a list of records or of lists, a string of no bytes is refused. -/
theorem shaped_of_project {s : Shape} {b : List UInt8} {r : Reader} (hs : TextFree s)
    (ht : term (fresh L b) = .ok t r) (hp : s.project? t = some v) :
    (¬ EmptyString s (b.take r.consumed) → shaped s (fresh L b) = .ok v r) ∧
    (EmptyString s (b.take r.consumed) → ∃ kind r', (kind = .record ∨ kind = .list) ∧
      shaped s (fresh L b) = .error (.unexpectedTag Tag.string.byte kind) r') := by
  obtain ⟨data, rest, rfl, hr, rfl⟩ := composed_term.ok_iff.1 ht
  have hsettles := settlesAll_of_textFree hs 0 data t v hr hp
  rw [take_consumed]
  unfold Settles at hsettles
  constructor
  · intro he
    rw [if_pos he] at hsettles
    exact (composed_shaped s).ok_iff.2 ⟨data, rest, rfl, hsettles, rfl⟩
  · intro he
    rw [if_neg (not_not_intro he)] at hsettles
    obtain ⟨_, r', h, kind, hkind, rfl⟩ := hsettles 0 rest
    exact ⟨kind, r', by simpa using hkind, h⟩

/-- A string of one byte is read as a list of integers, and a string of none not as one of lists. -/
theorem shaped_of_project_strings :
    shaped (.record [⟨none, .list .bigInteger⟩, ⟨none, .any⟩])
        (fresh { maxDepth := 1 } [105, 0, 0, 0, 2, 107, 0, 1, 5, 110, 1, 0, 7, 9]) =
      .ok (.record [⟨none, .list [.bigInteger 5]⟩, ⟨none, .term (.int 7)⟩])
        (memory { maxDepth := 1 } 0 13 [9]) ∧
    ∃ kind r', (kind = .record ∨ kind = .list) ∧
      shaped (.list (.list .any)) (fresh { maxDepth := 1 } [107, 0, 0]) =
        .error (.unexpectedTag Tag.string.byte kind) r' := by
  have hinner : TextFree (.list .any) := .list .any
  have hfields : ∀ f ∈ ([⟨none, .list .bigInteger⟩, ⟨none, .any⟩] : List (Field Shape)),
      TextFree f.value := by
    simp [TextFree.list, TextFree.bigInteger, TextFree.any]
  have hr : term (fresh { maxDepth := 1 } [105, 0, 0, 0, 2, 107, 0, 1, 5, 110, 1, 0, 7, 9]) =
      .ok (.tuple [.list [.int 5], .int 7]) (memory { maxDepth := 1 } 0 13 [9]) := by decide +kernel
  have hr' : term (fresh { maxDepth := 1 } [107, 0, 0]) =
      .ok (.list []) (memory { maxDepth := 1 } 0 3 []) := by decide +kernel
  refine ⟨(shaped_of_project (.record hfields) hr rfl).1 ?_,
    (shaped_of_project (.list hinner) hr' rfl).2 (.list rfl)⟩
  rintro (_ | _ | ⟨-, hx, he⟩)
  have hf := (List.of_mem_zip hx).1
  simp only [List.mem_cons, List.not_mem_nil, or_false] at hf
  rcases hf with rfl | rfl
  · rcases he with h | ⟨-, -, ⟨⟩⟩
    cases h
  · cases he

end

end Reader

end ExternalTerm
