import ExternalTerm.Proofs.Elements

/-!
# Reading again what was read and written

A list that came as a string, or as the end of a list alone, is written with its elements one by
one. Then it counts towards the depth and the number of elements, as it did not before.

* `Outgrows` : some list in the bytes is too deep or too long to be read again;
* `within_iff_not_outgrows` : it is only these lists for which a term that was read within limits is
  not within them.

On a new reader, what was read comes back from what is written for it, or ends at a limit.
-/

namespace ExternalTerm

open Reader

/-- The bytes of a list in a form that has no other terms in it, and the number of its elements. -/
inductive ShortList : List UInt8 → Nat → Prop
  | nil : ShortList [Tag.nil.byte] 0
  | string {bytes : List UInt8} (h : bytes.length < 256 ^ 2) :
      ShortList (Tag.string.byte :: (Digits.bigEndian 2 bytes.length ++ bytes)) bytes.length

/-- In these bytes, inside `d` tuples and lists, there is a list in a short form that is too deep or
too long for any other. -/
inductive Outgrows (L : Limits) : Nat → List UInt8 → Prop
  | short {d n : Nat} {data : List UInt8} (h : ShortList data n)
      (hn : L.maxDepth ≤ d ∨ L.maxElements < n) : Outgrows L d data
  | element {d : Nat} {x data : List UInt8} (hx : Element x data) (h : Outgrows L (d + 1) x) :
      Outgrows L d data

section
variable {L : Limits} {d n n' : Nat} {data body : List UInt8} {parts : List (List UInt8)}
  {ts : List Term} {tag : Tag} {t : Term}

theorem ShortList.tag_eq (h : ShortList (tag.byte :: body) n) : tag = .nil ∨ tag = .string := by
  generalize hd : tag.byte :: body = data at h
  cases h with
  | nil =>
    injection hd with htag
    exact .inl (Tag.byte_injective htag)
  | string =>
    injection hd with htag
    exact .inr (Tag.byte_injective htag)

theorem ShortList.unique (h : ShortList data n) (h' : ShortList data n') : n = n' := by
  generalize hd : data = data' at h'
  cases h with
  | nil =>
    cases h' with
    | nil => rfl
    | string => injection hd with htag; cases htag
  | string hn =>
    cases h' with
    | nil => injection hd with htag; cases htag
    | string hn' =>
      injection hd with _ hbody
      exact (bigEndian_append_inj hn hn' hbody).1

theorem Elements.not_shortList (h : Elements parts data) : ¬ ShortList data n := by
  rintro (_ | _)
  all_goals
    rcases h.tag_eq with hw | hl
    · exact hw rfl
    · cases hl

theorem outgrows_iff_of_elements (h : Elements parts data) :
    Outgrows L d data ↔ ∃ x ∈ parts, Outgrows L (d + 1) x := by
  constructor
  · rintro (⟨hs, -⟩ | ⟨hx, ho⟩)
    · exact absurd hs h.not_shortList
    · exact ⟨_, h.element_iff.1 hx, ho⟩
  · rintro ⟨x, hx, ho⟩
    exact .element (h.element_iff.2 hx) ho

theorem outgrows_iff_of_shortList (h : ShortList data n) :
    Outgrows L d data ↔ L.maxDepth ≤ d ∨ L.maxElements < n := by
  constructor
  · rintro (⟨hs, hn⟩ | ⟨hx, -⟩)
    · rwa [← hs.unique h]
    · obtain ⟨parts, hparts, -⟩ := element_iff.1 hx
      exact absurd h hparts.not_shortList
  · exact .short h

/-- Bytes that are neither a tuple nor a list. -/
theorem not_outgrows (hw : tag.tupleWidth? = none) (hl : tag ≠ .list) (hnil : tag ≠ .nil)
    (hs : tag ≠ .string) : ¬ Outgrows L d (tag.byte :: body) := by
  generalize hd : tag.byte :: body = data
  rintro (⟨h, -⟩ | ⟨hx, -⟩)
  · rcases (hd ▸ h).tag_eq with h | h
    · exact hnil h
    · exact hs h
  · obtain ⟨parts, h, -⟩ := element_iff.1 hx
    rcases (hd ▸ h).tag_eq with h | h
    · exact h hw
    · exact hl h

/-! ## Limits -/

/-- The digits that an integer has at least are no more than those it came with. -/
theorem IntegerForm.payload_le {i : Int} (h : IntegerForm tag body i)
    (hl : tag = .smallBig → body.length ≤ L.maxPayload + 2) :
    (Term.ofInteger i).payload ≤ L.maxPayload := by
  by_cases hi : Width.w32.Fits i
  · rw [Term.ofInteger_of_fits hi]
    exact Nat.zero_le _
  rw [Term.ofInteger_of_not_fits hi, Term.payload, if_neg hi]
  cases h with
  | small b =>
    have := b.toNat_lt
    rw [Width.fits_w32_iff] at hi
    omega
  | word v => exact absurd (Width.fits_toInt32 v) hi
  | big negative digits hd =>
    have := Digits.byteLength_le_iff.2 (Digits.ofLittleEndian_lt digits)
    have := hl rfl
    rw [natAbs_signedValue]
    simp only [List.length_append, List.length_cons, Digits.length_bigEndian] at *
    omega

theorem forall_mem_iff_of_parts {P : Term → Prop} {Q : List UInt8 → Prop}
    (h : List.Forall₂ (fun x t => P t ↔ Q x) parts ts) : (∀ t ∈ ts, P t) ↔ ∀ x ∈ parts, Q x := by
  induction h with
  | nil => exact ⟨fun _ => List.forall_mem_nil _, fun _ => List.forall_mem_nil _⟩
  | cons hx _ ih => rw [List.forall_mem_cons, List.forall_mem_cons, hx, ih]

/-- A term that was read is within the limits unless a list has outgrown them. -/
theorem within_iff_not_outgrows (h : Reads term L d data t) :
    t.Within (L.inside d) ↔ ¬ Outgrows L d data := by
  induction hlen : data.length using Nat.strong_induction_on generalizing d data t with
  | _ k ih =>
  obtain ⟨tag, body, rfl, form⟩ := reads_term_form_iff.1 h
  rw [List.length_cons] at hlen
  have hparts {parts : List (List UInt8)} {ts : List Term}
      (h : List.Forall₂ (Reads term L (d + 1)) parts ts) (hle : parts.flatten.length < k) :
      (∀ t ∈ ts, t.Within (L.inside (d + 1))) ↔ ∀ x ∈ parts, ¬ Outgrows L (d + 1) x :=
    forall_mem_iff_of_parts (forall₂_of_parts h fun x u hx hu => ih x.length (by omega) hu rfl)
  cases form with
  | @integer _ _ i hform hl =>
    have htag : ¬ Outgrows L d (tag.byte :: body) := by
      cases hform <;> exact not_outgrows rfl nofun nofun nofun
    refine iff_of_true ((Term.within_of_integer (integer?_ofInteger i)).2 ?_) htag
    exact hform.payload_le hl
  | @atom _ w s hfamily hw hs hl =>
    have htag (body : List UInt8) : ¬ Outgrows L d (tag.byte :: body) := by
      cases tag <;> first | cases hfamily; done | exact not_outgrows rfl nofun nofun nofun
    exact iff_of_true ((Term.within_iff_payload rfl rfl rfl).2 hl) (htag _)
  | text hs hl =>
    exact iff_of_true ((Term.within_iff_payload rfl rfl rfl).2 hl)
      (not_outgrows rfl nofun nofun nofun)
  | @string bytes hlt hl =>
    have helement (b : UInt8) : (Term.int (Int32.ofNat b.toNat)).Within (L.inside (d + 1)) :=
      (Term.within_iff_payload rfl rfl rfl).2 (Nat.zero_le _)
    rw [byteList, Term.within_list_iff, outgrows_iff_of_shortList (.string hlt), List.length_map,
      List.forall_mem_map]
    simp only [helement, implies_true, and_true]
    omega
  | nil =>
    rw [Term.within_list_iff, outgrows_iff_of_shortList .nil]
    simp
  | tuple hw hn hl hd helements =>
    rw [List.length_append] at hlen
    have hbytes := Elements.tuple hw hn (helements.imp fun _ _ => wire_of_reads)
    rw [Term.within_tuple_iff, hparts helements (by omega), outgrows_iff_of_elements hbytes]
    simp [hl, hd]
  | list hn hl hd helements =>
    rw [List.length_append, List.length_append] at hlen
    have hbytes := Elements.list hn (helements.imp fun _ _ => wire_of_reads)
    rw [Term.within_list_iff, hparts helements (by omega), outgrows_iff_of_elements hbytes]
    simp [hl, hd]

/-- What was read within limits can be written, and is read again from what is written, within the
same limits, exactly when no list has outgrown them; otherwise reading ends at a limit. -/
theorem term_of_reread {b : List UInt8} {r : Reader} (h : term (fresh L b) = .ok t r) :
    ∃ b', t.written = .ok b' ∧
      (¬ Outgrows L 0 (b.take r.consumed) →
        term (fresh L b') = .ok t (memory L 0 b'.length [])) ∧
      (Outgrows L 0 (b.take r.consumed) → ∃ e r', term (fresh L b') = .error e r' ∧ e.IsLimit) := by
  obtain ⟨data, rest, rfl, hr, rfl⟩ := composed_term.ok_iff.1 h
  have hw : Wire data t := wire_of_reads hr
  have hwithin := within_iff_not_outgrows hr
  have hwritten : t.written = .ok t.encoded := written_eq_ok_iff.2 ⟨hw.encodable, rfl⟩
  rw [Limits.inside_zero] at hwithin
  rw [take_consumed]
  refine ⟨t.encoded, hwritten, fun ho => hw.term_encoded (hwithin.2 ho), fun ho => ?_⟩
  have hread := gives_term (L := L) t hw.encodable 0
  rw [Limits.inside_zero, if_neg fun ht => hwithin.1 ht ho] at hread
  have herror := hread 0 []
  rwa [List.append_nil] at herror

/-- A string of two bytes and an empty list, inside one tuple of the two levels that there are. -/
theorem term_of_reread_strings :
    term (fresh { maxElements := 2, maxDepth := 2 } [104, 2, 107, 0, 2, 1, 2, 106]) =
      .ok (.tuple [.list [.int 1, .int 2], .list []])
        (memory { maxElements := 2, maxDepth := 2 } 0 8 []) ∧
    ∃ b', (Term.tuple [.list [.int 1, .int 2], .list []]).written = .ok b' ∧
      term (fresh { maxElements := 2, maxDepth := 2 } b') =
        .ok (.tuple [.list [.int 1, .int 2], .list []])
          (memory { maxElements := 2, maxDepth := 2 } 0 b'.length []) := by
  have h : term (fresh { maxElements := 2, maxDepth := 2 } [104, 2, 107, 0, 2, 1, 2, 106]) =
      .ok (.tuple [.list [.int 1, .int 2], .list []])
        (memory { maxElements := 2, maxDepth := 2 } 0 8 []) := by decide +kernel
  obtain ⟨b', hwritten, hok, -⟩ := term_of_reread h
  have hin := (within_iff_not_outgrows (composed_term.reads_iff.2 h)).1 (by decide)
  exact ⟨h, b', hwritten, hok hin⟩

/-- A string of two bytes is read where lists may have one element, but not the list that is written
for it. -/
theorem not_term_of_reread : ¬ ∀ (L : Limits) (b : List UInt8) (t : Term) (r : Reader),
    term (fresh L b) = .ok t r →
      ∃ b' r', t.written = .ok b' ∧ term (fresh L b') = .ok t r' := by
  intro hall
  have h : term (fresh { maxElements := 1, maxDepth := 1 } [107, 0, 2, 1, 2]) =
      .ok (.list [.int 1, .int 2]) (memory { maxElements := 1, maxDepth := 1 } 0 5 []) := by
    decide +kernel
  have hwritten : (Term.list [.int 1, .int 2]).written =
      .ok [108, 0, 0, 0, 2, 97, 1, 97, 2, 106] := written_eq_ok_iff.2 ⟨rfl, rfl⟩
  have herror : term (fresh { maxElements := 1, maxDepth := 1 }
      [108, 0, 0, 0, 2, 97, 1, 97, 2, 106]) = .error (.limitExceeded .list 2 1)
        (memory { maxElements := 1, maxDepth := 1 } 0 5 [97, 1, 97, 2, 106]) := by decide +kernel
  obtain ⟨b', r', hb, hok⟩ := hall _ _ _ _ h
  cases hwritten.symm.trans hb
  cases herror.symm.trans hok

end

end ExternalTerm
