import ExternalTerm.Proofs.Projection

/-!
# What a shape shows of a term

`s.Views v t` says that the value `v` is what a receiver of the shape `s` sees of the term `t`.

* `TextForm.exists_term` : every form of a text is a form of a term that carries the text;
* `viewed_shaped` : whatever is read against a shape can be read as a term, and the value is what
  the shape shows of it.

A list of characters counts as a list when it is read as a term, but not when it is read as a text.
So the term may need one level more than the limit allows the shape.
-/

namespace ExternalTerm

open Reader

/-- The limits with one more level, unless there are as many as a machine can name. -/
def Limits.deeper (L : Limits) : Limits :=
  { L with maxDepth := if L.maxDepth < lengthBound then L.maxDepth + 1 else L.maxDepth }

theorem Limits.below_deeper (L : Limits) : L.Below L.deeper where
  payload := Nat.le_refl _
  elements := Nat.le_refl _
  depth := by
    unfold deeper
    dsimp only
    split <;> omega

theorem Limits.lt_deeper {L : Limits} {d : Nat} (h : d ≤ L.maxDepth)
    (hd : L.maxDepth < lengthBound ∨ d < lengthBound) : d < L.deeper.maxDepth := by
  unfold deeper
  dsimp only
  split <;> omega

/-- The term carries the text: as its name, as its text, or as the list of the numbers of the
characters or of the bytes in UTF-8. -/
inductive Term.Carries : Term → String → Prop
  | atom (s : String) : Carries (.atom s) s
  | text (s : String) : Carries (.text s) s
  | characters (s : String) : Carries (.list (s.toList.map fun c => .ofInteger c.toNat)) s
  | bytes (s : String) : Carries (.list ((Utf8.encode s).map fun b => .ofInteger b.toNat)) s

namespace Shape

mutual

/-- The value is what the shape shows of the term. -/
def Views : Shape → Decoded → Term → Prop
  | .integer w, .integer n, t => w.Fits n.toInt ∧ t = .ofInteger n.toInt
  | .bigInteger, .bigInteger n, t => t = .ofInteger n
  | .text, .text s, t => t.Carries s
  | .taggedText, .tagged s, t => t.Carries s.value ∧ s.family = t.family
  | .record fields, .record values, .tuple ts => ViewsFields fields values ts
  | .list element, .list vs, .list ts => List.Forall₂ (Views element) vs ts
  | .any, .term u, t => u = t
  | _, _, _ => False

def ViewsFields : List (Field Shape) → List (Field Decoded) → List Term → Prop
  | [], [], [] => True
  | ⟨name, shape⟩ :: fields, ⟨name', v⟩ :: values, t :: ts =>
    name' = name ∧ Views shape v t ∧ ViewsFields fields values ts
  | _, _, _ => False

end

end Shape

namespace Reader

section
variable {L : Limits} {d : Nat} {data body : List UInt8} {tag : Tag} {s : String}

/-- The numbers of characters are read as the elements of a list. -/
theorem reads_terms_of_characters {L' : Limits} {d' n : Nat} {chars : List Char}
    (hL : L.maxPayload ≤ L'.maxPayload) (h : Reads (repeated n character) L d body chars) :
    Reads (repeated n term) L' d' body (chars.map fun c => .ofInteger c.toNat) := by
  obtain ⟨ts, hts, hall⟩ := exists_repeated (V := fun c t => Term.ofInteger c.toNat = t)
    composed.character (fun x c _ hx =>
      ⟨_, reads_term_of_bigInteger (reads_character_iff.1 hx) hL, rfl⟩) h
  have hmap : List.Forall₂ Eq (chars.map fun c => Term.ofInteger c.toNat) ts :=
    List.forall₂_map_left_iff.2 hall
  rw [List.forall₂_eq_eq_eq] at hmap
  rwa [hmap]

/-- Every form of a text is a form of a term that carries the text. -/
theorem TextForm.exists_term (h : TextForm L d tag body s) (hd : d < L.deeper.maxDepth) :
    ∃ t : Term, TermForm L.deeper d (Reads term L.deeper (d + 1)) tag body t ∧ t.Carries s ∧
      tag.textFamily? = some t.family := by
  cases h with
  | @sized _ w s hw hs hl =>
    cases tag with
    | atom | smallAtom | atomUtf8 | smallAtomUtf8 =>
      exact ⟨.atom s, .atom rfl hw hs hl, .atom s, rfl⟩
    | binary =>
      cases hw
      exact ⟨.text s, .text hs hl, .text s, rfl⟩
    | string =>
      cases hw
      have hform : TermForm L.deeper d (Reads term L.deeper (d + 1)) .string
          (Digits.bigEndian 2 (Utf8.size s) ++ Utf8.encode s) (byteList (Utf8.encode s)) :=
        .string hs hl
      exact ⟨_, hform, byteList_eq _ ▸ .bytes s, rfl⟩
    | _ => cases hw
  | @characters chars body hn hl hchars =>
    have hts : Reads (repeated chars.length term) L.deeper (d + 1) body
        (chars.map fun c => .ofInteger c.toNat) :=
      reads_terms_of_characters L.below_deeper.payload hchars
    rw [← List.length_map (fun c : Char => Term.ofInteger c.toNat)] at hn hl hts ⊢
    have hcarries := Term.Carries.characters (String.ofList chars)
    rw [String.toList_ofList] at hcarries
    exact ⟨_, .list_of_reads hn hl hd hts, hcarries, rfl⟩
  | nil => exact ⟨_, .nil, .characters "", rfl⟩

end

/-! ## Shapes -/

section
variable {L : Limits} {d : Nat} {data body : List UInt8}

/-- Whatever is read against the shape can be read as a term that the value is a view of. Where
there is no level to add to the limit, the bytes are too few to reach it. -/
def Viewed (L : Limits) (s : Shape) : Prop :=
  ∀ (d : Nat) (data : List UInt8) (v : Decoded), d ≤ L.maxDepth →
    L.maxDepth < Limits.lengthBound ∨ d + data.length ≤ Limits.lengthBound →
    Reads (shaped s) L d data v → ∃ t, Reads term L.deeper d data t ∧ s.Views v t

theorem viewed_integer {w : Width} (h : w ≠ .w8) : Viewed L (.integer w) := by
  intro d data v _ _ hr
  rw [shaped_integer h] at hr
  obtain ⟨k, rfl, hk⟩ := (reads_map_iff (composed.integer w) _).1 hr
  obtain ⟨n, hn, rfl, hbig⟩ := reads_integer_iff.1 hk
  refine ⟨.ofInteger n, reads_term_of_bigInteger hbig (Nat.le_refl _), ?_⟩
  rw [Shape.Views, Width.toInt_ofInt64 (Width.fits_w64_of_fits hn)]
  exact ⟨hn, rfl⟩

theorem viewed_text : Viewed L .text := by
  intro d data v hd hlen hr
  obtain ⟨s, rfl, hs⟩ := (reads_map_iff (composed.byte.bind composed.textTagged) _).1 hr
  obtain ⟨tag, body, rfl, form⟩ := reads_text_iff.1 hs
  rw [List.length_cons] at hlen
  obtain ⟨t, ht, hcarries, -⟩ := form.exists_term (Limits.lt_deeper hd (by omega))
  exact ⟨t, reads_term_form_iff.2 ⟨tag, body, rfl, ht⟩, hcarries⟩

theorem viewed_taggedText : Viewed L .taggedText := by
  intro d data v hd hlen hr
  obtain ⟨tag, body, s, rfl, rfl, hfamily, form⟩ := reads_shaped_taggedText_iff.1 hr
  rw [List.length_cons] at hlen
  obtain ⟨t, ht, hcarries, hfam⟩ := form.exists_term (Limits.lt_deeper hd (by omega))
  refine ⟨t, reads_term_form_iff.2 ⟨tag, body, rfl, ht⟩, hcarries, ?_⟩
  exact Option.some.inj (hfamily.symm.trans hfam)

theorem exists_terms_of_fields {fields : List (Field Shape)} {values : List (Field Decoded)}
    (h : ∀ f ∈ fields, Viewed L f.value) (hd : d ≤ L.maxDepth)
    (hlen : L.maxDepth < Limits.lengthBound ∨ d + data.length ≤ Limits.lengthBound)
    (hr : Reads (shapedFields fields) L d data values) :
    ∃ ts, Reads (repeated fields.length term) L.deeper d data ts ∧
      Shape.ViewsFields fields values ts := by
  induction fields generalizing data values with
  | nil =>
    obtain ⟨rfl, rfl⟩ := reads_pure_iff.1 hr
    exact ⟨[], Reads.pure [], trivial⟩
  | cons f fields ih =>
    obtain ⟨hf, hfs⟩ := List.forall_mem_cons.1 h
    obtain ⟨x, v, y, vs, rfl, rfl, hx, hy⟩ := reads_shapedFields_cons_iff.1 hr
    rw [List.length_append] at hlen
    obtain ⟨t, ht, hview⟩ := hf d x v hd (by omega) hx
    obtain ⟨ts, hts, hviews⟩ := ih hfs (by omega) hy
    rw [List.length_cons, repeated_succ]
    refine ⟨t :: ts, ht.bind ?_, rfl, hview, hviews⟩
    exact (reads_map_iff (composed_term.repeated fields.length) (t :: ·)).2 ⟨ts, rfl, hts⟩

theorem viewed_record {fields : List (Field Shape)} (h : ∀ f ∈ fields, Viewed L f.value) :
    Viewed L (.record fields) := by
  intro d data v _ hlen hr
  obtain ⟨tag, w, body, values, hw, hlt, hl, hd, rfl, hvalues, rfl⟩ :=
    reads_shaped_record_iff.1 hr
  rw [List.length_cons, List.length_append] at hlen
  obtain ⟨ts, hts, hviews⟩ := exists_terms_of_fields h hd (by omega) hvalues
  have hn := length_of_reads_repeated composed_term hts
  rw [← hn] at hlt hl hts ⊢
  have hd' := Nat.lt_of_lt_of_le hd L.below_deeper.depth
  exact ⟨.tuple ts, reads_term_form_iff.2 ⟨tag, _, rfl, .tuple_of_reads hw hlt hl hd' hts⟩, hviews⟩

/-- The bytes of a string are views of the elements of its list. -/
theorem views_byteElement {element : Shape} {ofByte : UInt8 → Decoded}
    (he : byteElement? element = some ofByte) (hs : element.check = .ok ()) (b : UInt8) :
    element.Views (ofByte b) (.ofInteger b.toNat) := by
  have hb := b.toNat_lt
  cases element with
  | integer w =>
    cases he
    have hw : w.Fits b.toNat := by
      cases w with
      | w8 => cases hs
      | _ => exact ⟨by simp only [Width.bits]; omega, by simp only [Width.bits]; omega⟩
    have hn : (Int64.ofNat b.toNat).toInt = b.toNat :=
      Width.toInt_ofInt64 (Width.fits_w64_of_fits hw)
    rw [Shape.Views, hn]
    exact ⟨hw, rfl⟩
  | bigInteger =>
    cases he
    rfl
  | any =>
    cases he
    exact (ofInteger_byte b).symm
  | _ => cases he

theorem viewed_list {element : Shape} (h : Viewed L element) (hs : element.check = .ok ()) :
    Viewed L (.list element) := by
  intro d data v _ hlen hr
  obtain ⟨tag, body, vs, rfl, rfl, form⟩ := reads_shaped_list_iff.1 hr
  rw [List.length_cons] at hlen
  cases form with
  | nil => exact ⟨.list [], reads_term_form_iff.2 ⟨.nil, [], rfl, .nil⟩, .nil⟩
  | @string ofByte bytes he hlt hl =>
    refine ⟨byteList bytes, reads_term_form_iff.2 ⟨.string, _, rfl, .string hlt hl⟩, ?_⟩
    rw [byteList_eq, Shape.Views, List.forall₂_map_left_iff, List.forall₂_map_right_iff]
    exact List.forall₂_same.2 fun b _ => views_byteElement he hs b
  | @list body vs hlt hl hd hvs =>
    simp only [List.length_append] at hlen
    obtain ⟨ts, hts, hviews⟩ := exists_repeated (composed_shaped element)
      (fun x u hx hu => h (d + 1) x u hd (by omega) hu) hvs
    have hn := hviews.length_eq
    rw [hn] at hlt hl hts ⊢
    have hd' := Nat.lt_of_lt_of_le hd L.below_deeper.depth
    exact ⟨.list ts, reads_term_form_iff.2 ⟨.list, _, rfl, .list_of_reads hlt hl hd' hts⟩, hviews⟩

theorem viewed_shaped (s : Shape) (hs : s.check = .ok ()) : Viewed L s := by
  induction s using Shape.induct with
  | integer w =>
    refine viewed_integer ?_
    rintro rfl
    cases hs
  | unsigned w => cases hs
  | bigInteger =>
    intro d data v _ _ hr
    obtain ⟨n, rfl, hn⟩ := (reads_map_iff composed.bigInteger _).1 hr
    exact ⟨.ofInteger n, reads_term_of_bigInteger hn (Nat.le_refl _), rfl⟩
  | text => exact viewed_text
  | taggedText => exact viewed_taggedText
  | record fields ih =>
    rw [Shape.check] at hs
    exact viewed_record fun f hf => ih f hf (Shape.check_of_mem hs hf)
  | list element ih => exact viewed_list (ih hs) hs
  | any =>
    intro d data v _ _ hr
    obtain ⟨t, rfl, ht⟩ := (reads_map_iff composed_term _).1 hr
    exact ⟨t, reads_term_mono L.below_deeper ht, rfl⟩

/-- Whatever is read against a shape, reading any term reads as well, with one more level and from
the same bytes, and the value is what the shape shows of the term. There is a level to add unless
the limit is the largest of a machine, and no machine holds more bytes than that. -/
theorem shaped_views_term {s : Shape} {b : List UInt8} {v : Decoded} {r : Reader}
    (hs : s.check = .ok ())
    (hb : L.maxDepth < Limits.lengthBound ∨ b.length ≤ Limits.lengthBound)
    (h : shaped s (fresh L b) = .ok v r) :
    ∃ data rest t, b = data ++ rest ∧ r = memory L 0 data.length rest ∧
      term (fresh L.deeper b) = .ok t (memory L.deeper 0 data.length rest) ∧ s.Views v t := by
  obtain ⟨data, rest, rfl, hr, rfl⟩ := (composed_shaped s).ok_iff.1 h
  rw [List.length_append] at hb
  obtain ⟨t, ht, hview⟩ := viewed_shaped s hs 0 data v (Nat.zero_le _) (by omega) hr
  exact ⟨data, rest, t, rfl, rfl, composed_term.ok_iff.2 ⟨data, rest, rfl, ht, rfl⟩, hview⟩

/-- A text in a record, as a list of one character: two levels as a term, one against the shape. -/
theorem shaped_views_term_characters :
    (Shape.record [⟨some "name", .text⟩]).check = .ok () ∧ 1 < Limits.lengthBound ∧
    shaped (.record [⟨some "name", .text⟩])
        (fresh { maxDepth := 1 } [104, 1, 108, 0, 0, 0, 1, 97, 104, 106, 7]) =
      .ok (.record [⟨some "name", .text "h"⟩]) (memory { maxDepth := 1 } 0 10 [7]) ∧
    ∃ data rest t, ([104, 1, 108, 0, 0, 0, 1, 97, 104, 106, 7] : List UInt8) = data ++ rest ∧
      memory { maxDepth := 1 } 0 10 [7] = memory { maxDepth := 1 } 0 data.length rest ∧
      term (fresh (Limits.deeper { maxDepth := 1 }) [104, 1, 108, 0, 0, 0, 1, 97, 104, 106, 7]) =
        .ok t (memory (Limits.deeper { maxDepth := 1 }) 0 data.length rest) ∧
      (Shape.record [⟨some "name", .text⟩]).Views (.record [⟨some "name", .text "h"⟩]) t := by
  have hb : 1 < Limits.lengthBound := by decide
  have hr : shaped (.record [⟨some "name", .text⟩])
      (fresh { maxDepth := 1 } [104, 1, 108, 0, 0, 0, 1, 97, 104, 106, 7]) =
        .ok (.record [⟨some "name", .text "h"⟩]) (memory { maxDepth := 1 } 0 10 [7]) := by
    decide +kernel
  exact ⟨rfl, hb, hr, shaped_views_term rfl (.inl hb) hr⟩

end

end Reader

end ExternalTerm
