import ExternalTerm.Proofs.Message
import ExternalTerm.Proofs.RoundTrip

/-!
# The grammar of terms

`Wire bytes t` derives the byte strings that stand for a term, tag by tag.

* `wire_of_reads`, `reads_of_wire` : what reading a term accepts is what the grammar derives;
* `Wire.unique` : no byte string begins with two terms.

The last theorem puts both together, on a new reader without limits and for whole messages.
-/

namespace ExternalTerm

open Reader

/-- The bytes of a term: a tag and what belongs to it. Integers come in the form their value has,
names and texts in UTF-8 after their length, elements one after the other after their number. -/
inductive Wire : List UInt8 → Term → Prop
  | integer {tag : Tag} {body : List UInt8} {n : Int} (h : IntegerForm tag body n) :
      Wire (tag.byte :: body) (.ofInteger n)
  | atom {tag : Tag} {w : Nat} {s : String} (ht : tag.textFamily? = some .atom)
      (hw : tag.textWidth? = some w) (hs : Utf8.size s < 256 ^ w) :
      Wire (tag.byte :: (Digits.bigEndian w (Utf8.size s) ++ Utf8.encode s)) (.atom s)
  | text {s : String} (hs : Utf8.size s < 256 ^ 4) :
      Wire (Tag.binary.byte :: (Digits.bigEndian 4 (Utf8.size s) ++ Utf8.encode s)) (.text s)
  | string {bytes : List UInt8} (h : bytes.length < 256 ^ 2) :
      Wire (Tag.string.byte :: (Digits.bigEndian 2 bytes.length ++ bytes)) (byteList bytes)
  | nil : Wire [Tag.nil.byte] (.list [])
  | tuple {tag : Tag} {w : Nat} {parts : List (List UInt8)} {ts : List Term}
      (hw : tag.tupleWidth? = some w) (hn : ts.length < 256 ^ w)
      (h : List.Forall₂ Wire parts ts) :
      Wire (tag.byte :: (Digits.bigEndian w ts.length ++ parts.flatten)) (.tuple ts)
  | list {parts : List (List UInt8)} {ts : List Term} (hn : ts.length < 256 ^ 4)
      (h : List.Forall₂ Wire parts ts) :
      Wire (Tag.list.byte :: (Digits.bigEndian 4 ts.length ++ (parts.flatten ++ [Tag.nil.byte])))
        (.list ts)

theorem Wire.length_pos {data : List UInt8} {t : Term} (h : Wire data t) : 0 < data.length := by
  cases h <;> exact Nat.succ_pos _

/-- Induction over derivations, with a hypothesis for each element. -/
@[elab_as_elim]
theorem Wire.induct {P : (data : List UInt8) → (t : Term) → Wire data t → Prop}
    {data : List UInt8} {t : Term} (h : Wire data t)
    (integer : ∀ {tag body n} (h : IntegerForm tag body n), P _ _ (.integer h))
    (atom : ∀ {tag w s} (ht : Tag.textFamily? tag = some .atom) (hw : tag.textWidth? = some w)
      (hs : Utf8.size s < 256 ^ w), P _ _ (.atom ht hw hs))
    (text : ∀ {s} (hs : Utf8.size s < 256 ^ 4), P _ _ (.text hs))
    (string : ∀ {bytes : List UInt8} (h : bytes.length < 256 ^ 2), P _ _ (.string h))
    (nil : P _ _ .nil)
    (tuple : ∀ {tag w parts ts} (hw : Tag.tupleWidth? tag = some w) (hn : ts.length < 256 ^ w)
      (h : List.Forall₂ Wire parts ts) (_ : List.Forall₂ (fun x u => ∃ h, P x u h) parts ts),
      P _ _ (.tuple hw hn h))
    (list : ∀ {parts ts} (hn : ts.length < 256 ^ 4) (h : List.Forall₂ Wire parts ts)
      (_ : List.Forall₂ (fun x u => ∃ h, P x u h) parts ts), P _ _ (.list hn h)) : P data t h :=
  @Wire.rec P (fun parts ts _ => List.Forall₂ (fun x u => ∃ h, P x u h) parts ts) integer atom text
    string nil tuple list .nil (fun h _ hp hs => .cons ⟨h, hp⟩ hs) data t h

/-! ## What is read is derived -/

section
variable {L : Limits} {d : Nat} {data : List UInt8} {t : Term}

theorem wire_of_reads (h : Reads term L d data t) : Wire data t := by
  induction hlen : data.length using Nat.strong_induction_on generalizing d data t with
  | _ n ih =>
  obtain ⟨tag, body, rfl, form⟩ := reads_term_form_iff.1 h
  rw [List.length_cons] at hlen
  have hparts {parts : List (List UInt8)} {ts : List Term}
      (h : List.Forall₂ (Reads term L (d + 1)) parts ts)
      (hle : parts.flatten.length ≤ body.length) : List.Forall₂ Wire parts ts :=
    forall₂_of_parts h fun x u hx hu => ih x.length (by omega) hu rfl
  cases form with
  | integer hform => exact .integer hform
  | atom htag hw hs => exact .atom htag hw hs
  | text hs => exact .text hs
  | string hlt => exact .string hlt
  | nil => exact .nil
  | tuple hw hn _ _ helements =>
    exact .tuple hw hn (hparts helements (by rw [List.length_append]; omega))
  | list hn _ _ helements =>
    exact .list hn (hparts helements (by simp only [List.length_append]; omega))

/-! ## What is derived is read -/

/-- Every term has at least one byte, so limits as large as the number of bytes do not matter. -/
theorem reads_of_wire (h : Wire data t) (hp : data.length ≤ L.maxPayload)
    (he : data.length ≤ L.maxElements) (hd : d + data.length ≤ L.maxDepth) :
    Reads term L d data t := by
  induction hlen : data.length using Nat.strong_induction_on generalizing d data t with
  | _ n ih =>
  rw [reads_term_form_iff]
  have hparts {parts : List (List UInt8)} {ts : List Term} (h : List.Forall₂ Wire parts ts)
      (hlt : parts.flatten.length < n) : List.Forall₂ (Reads term L (d + 1)) parts ts :=
    forall₂_of_parts h fun x u hx hu =>
      ih x.length (by omega) hu (by omega) (by omega) (by omega) rfl
  have hcount {parts : List (List UInt8)} {ts : List Term} (h : List.Forall₂ Wire parts ts) :
      ts.length ≤ parts.flatten.length := length_le_of_parts h fun x u hu => hu.length_pos
  cases h with
  | integer hform =>
    rw [List.length_cons] at hp
    exact ⟨_, _, rfl, .integer hform fun _ => by omega⟩
  | atom htag hw hs =>
    rw [List.length_cons, List.length_append, Utf8.length_encode] at hp
    exact ⟨_, _, rfl, .atom htag hw hs (by omega)⟩
  | text hs =>
    rw [List.length_cons, List.length_append, Utf8.length_encode] at hp
    exact ⟨_, _, rfl, .text hs (by omega)⟩
  | string hlt =>
    rw [List.length_cons, List.length_append] at hp
    exact ⟨_, _, rfl, .string hlt (by omega)⟩
  | nil => exact ⟨_, _, rfl, .nil⟩
  | tuple hw hn helements =>
    have hle := hcount helements
    rw [List.length_cons, List.length_append] at he hd hlen
    exact ⟨_, _, rfl, .tuple hw hn (by omega) (by omega) (hparts helements (by omega))⟩
  | list hn helements =>
    have hle := hcount helements
    rw [List.length_cons, List.length_append, List.length_append] at he hd hlen
    exact ⟨_, _, rfl, .list hn (by omega) (by omega) (hparts helements (by omega))⟩

/-- No byte string begins with two terms. -/
theorem Wire.unique {x y xs ys : List UInt8} {t u : Term} (hx : Wire x t) (hy : Wire y u)
    (h : x ++ xs = y ++ ys) : x = y ∧ t = u := by
  have hlarge (z : List UInt8) (hz : z.length ≤ x.length + y.length) :
      0 + z.length ≤ x.length + y.length := by omega
  let L : Limits := ⟨x.length + y.length, x.length + y.length, x.length + y.length⟩
  have hxr : Reads term L 0 x t :=
    reads_of_wire hx (Nat.le_add_right _ _) (Nat.le_add_right _ _) (hlarge x (by omega))
  have hyr : Reads term L 0 y u :=
    reads_of_wire hy (Nat.le_add_left _ _) (Nat.le_add_left _ _) (hlarge y (by omega))
  have hr := hyr 0 ys
  rw [← h, hxr 0 xs] at hr
  injection hr with ht hmem
  exact ⟨(List.append_inj h (by simpa using (memory_inj.1 hmem).1)).1, ht⟩

theorem reads_term_unbounded_iff (hdata : data.length ≤ Limits.lengthBound) :
    Reads term .unbounded 0 data t ↔ Wire data t :=
  ⟨wire_of_reads, fun h => reads_of_wire h hdata hdata (by rwa [Nat.zero_add])⟩

/-! ## Messages -/

theorem reads_message_any_iff {v : Decoded} :
    Reads (readMessage .any) L d data v ↔
      ∃ body t, data = versionMagic :: body ∧ v = .term t ∧ Reads term L d body t := by
  have hshaped {body : List UInt8} :
      Reads (shaped .any) L d body v ↔ ∃ t, v = .term t ∧ Reads term L d body t :=
    reads_map_iff composed_term _
  simp only [reads_message_iff, hshaped, exists_and_left]

/-- Reading a term without limits accepts what the grammar derives, and so does decoding a message
after its first byte; at most one prefix of the bytes is accepted. The bound holds of all bytes in a
machine. -/
theorem term_iff_wire {b : List UInt8} (hb : b.length ≤ Limits.lengthBound) :
    (∀ t r, term (fresh .unbounded b) = .ok t r ↔
      ∃ data rest, b = data ++ rest ∧ Wire data t ∧
        r = memory .unbounded 0 data.length rest) ∧
    (∀ v source, decode (.ofBytes b) .any .unbounded = (.ok v, source) ↔
      ∃ data rest t, b = versionMagic :: (data ++ rest) ∧ Wire data t ∧ v = .term t ∧
        source = { pending := rest, delivered := data.length + 1 }) ∧
    (∀ data rest data' rest' t t', b = data ++ rest → b = data' ++ rest' → Wire data t →
      Wire data' t' → data = data' ∧ t = t') := by
  refine ⟨fun t r => ?_, fun v source => ?_, fun data rest data' rest' t t' h h' hw hw' => ?_⟩
  · rw [composed_term.ok_iff]
    refine ⟨fun h => ?_, fun h => ?_⟩
    · obtain ⟨data, rest, hdata, hr, hmem⟩ := h
      exact ⟨data, rest, hdata, wire_of_reads hr, hmem⟩
    · obtain ⟨data, rest, rfl, hw, hmem⟩ := h
      rw [List.length_append] at hb
      exact ⟨data, rest, rfl, (reads_term_unbounded_iff (by omega)).2 hw, hmem⟩
  · rw [decode_ok_iff rfl]
    simp only [(composed_message .any).ok_iff, reads_message_any_iff]
    refine ⟨fun h => ?_, fun h => ?_⟩
    · obtain ⟨r, ⟨_, rest, rfl, ⟨data, t, rfl, rfl, hr⟩, rfl⟩, rfl⟩ := h
      exact ⟨data, rest, t, rfl, wire_of_reads hr, rfl, rfl⟩
    · obtain ⟨data, rest, t, rfl, hw, rfl, rfl⟩ := h
      rw [List.length_cons, List.length_append] at hb
      exact ⟨_, ⟨_, rest, rfl, ⟨data, t, rfl, rfl,
        (reads_term_unbounded_iff (by omega)).2 hw⟩, rfl⟩, rfl⟩
  · exact hw.unique hw' (h.symm.trans h')

theorem term_iff_wire_string :
    ([131, 107, 0, 1, 5, 9] : List UInt8).length ≤ Limits.lengthBound ∧
    decode (.ofBytes [131, 107, 0, 1, 5, 9]) .any .unbounded =
      (.ok (.term (.list [.int 5])), { pending := [9], delivered := 5 }) := by
  have h : Wire [107, 0, 1, 5] (.list [.int 5]) := @Wire.string [5] (by decide)
  have hb : ([131, 107, 0, 1, 5, 9] : List UInt8).length ≤ Limits.lengthBound := by decide
  exact ⟨hb, ((term_iff_wire hb).2.1 _ _).2 ⟨[107, 0, 1, 5], [9], _, rfl, h, rfl, rfl⟩⟩

end

end ExternalTerm
