import ExternalTerm.Proofs.Numeral
import ExternalTerm.Proofs.Projection

/-!
# Lists of characters

A text can come as a list of the numbers of its characters, each of them in any form of an integer.

* `IsScalar`, `char?_eq_none_iff` : the numbers of characters;
* `Numeral.listBytes` : a list of integers;
* `Numeral.reads_characters_iff` : what is read as characters are integers that are their numbers;
* `Numeral.reads_text`, `Numeral.stops_text` : a list of numbers of characters is read to the text,
  and every other one stops reading right after the first element that is no such number;
* `text_of_numerals` : so it is a text if and only if all elements are numbers of characters;
* `not_text_of_numerals` : the error for an element that is no such number is not always that.
-/

namespace ExternalTerm

open Reader

/-- The Unicode scalar values: the code points that are no surrogates. -/
def IsScalar (n : Int) : Prop := 0 ≤ n ∧ n ≤ 0xD7FF ∨ 0xE000 ≤ n ∧ n ≤ 0x10FFFF

instance (n : Int) : Decidable (IsScalar n) := inferInstanceAs (Decidable (_ ∨ _))

/-- The error for an element that is no number of a character: that it is none, or, if it exceeds 64
bits, that it does. -/
def notCharacter (n : Int) : DecodeError :=
  if Width.w64.Fits n then .invalidCodePoint n else .overflow n .w64

section
variable {n : Int}

theorem isScalar_iff : IsScalar n ↔ ∃ c : Char, (c.toNat : Int) = n := by
  constructor
  · intro h
    have hvalid : n.toNat.isValidChar := by
      unfold IsScalar at h
      unfold Nat.isValidChar
      omega
    refine ⟨Char.ofNat n.toNat, ?_⟩
    rw [Utf8.toNat_ofNat_valid hvalid]
    unfold IsScalar at h
    omega
  · rintro ⟨c, rfl⟩
    have hvalid : c.toNat.isValidChar := c.valid
    unfold Nat.isValidChar at hvalid
    unfold IsScalar
    omega

theorem char?_eq_none_iff : char? n = none ↔ ¬ IsScalar n := by
  rw [Option.eq_none_iff_forall_ne_some, isScalar_iff, not_exists]
  exact forall_congr' fun c => not_congr (char?_eq_some_iff.trans eq_comm)

end

namespace Numeral

def listBytes (ns : List Numeral) : List UInt8 :=
  Tag.list.byte :: (Digits.bigEndian 4 ns.length ++ (ns.flatMap bytes ++ [Tag.nil.byte]))

theorem listBytes_append {ns before after : List Numeral} {n : Numeral}
    (h : ns = before ++ n :: after) (rest : List UInt8) :
    listBytes ns ++ rest =
      Tag.list.byte :: (Digits.bigEndian 4 ns.length ++ (before.flatMap bytes ++ n.bytes)) ++
        (after.flatMap bytes ++ Tag.nil.byte :: rest) := by
  have hflat : ns.flatMap bytes = before.flatMap bytes ++ (n.bytes ++ after.flatMap bytes) := by
    rw [h, List.flatMap_append, List.flatMap_cons]
  simp only [listBytes, hflat, List.cons_append, List.append_assoc, List.nil_append]

section
variable {n : Numeral} {ns before after : List Numeral} {chars : List Char} {L : Limits} {d : Nat}
  {more : List UInt8 → Prop}

theorem length_of_values (h : ns.map value = chars.map fun c => (c.toNat : Int)) :
    ns.length = chars.length := by
  rw [← ns.length_map value, h, List.length_map]

theorem exists_chars (h : ∀ n ∈ ns, IsScalar n.value) :
    ∃ chars : List Char, ns.map value = chars.map fun c => (c.toNat : Int) := by
  induction ns with
  | nil => exact ⟨[], rfl⟩
  | cons n ns ih =>
    obtain ⟨hn, hns⟩ := List.forall_mem_cons.1 h
    obtain ⟨c, hc⟩ := isScalar_iff.1 hn
    obtain ⟨chars, hchars⟩ := ih hns
    exact ⟨c :: chars, by rw [List.map_cons, List.map_cons, hc, hchars]⟩

/-- The first element that is no number of a character. -/
theorem exists_first (h : ¬ ∀ n ∈ ns, IsScalar n.value) :
    ∃ before n after, ns = before ++ n :: after ∧ (∀ m ∈ before, IsScalar m.value) ∧
      ¬ IsScalar n.value := by
  induction ns with
  | nil => exact absurd (fun _ hn => nomatch hn) h
  | cons n ns ih =>
    by_cases hn : IsScalar n.value
    · obtain ⟨before, m, after, rfl, hbefore, hm⟩ :=
        ih fun hns => h (List.forall_mem_cons.2 ⟨hn, hns⟩)
      exact ⟨n :: before, m, after, rfl, List.forall_mem_cons.2 ⟨hn, hbefore⟩, hm⟩
    · exact ⟨[], n, ns, rfl, fun _ hm => (nomatch hm), hn⟩

/-- What is read as so many characters are integers whose values are the numbers of these. -/
theorem reads_characters_iff {body : List UInt8} :
    Reads (repeated chars.length character) L d body chars ↔
      ∃ ns : List Numeral, (∀ n ∈ ns, n.Admitted L) ∧ body = ns.flatMap bytes ∧
        ns.map value = chars.map fun c => (c.toNat : Int) := by
  rw [reads_repeated_iff composed.character]
  constructor
  · rintro ⟨-, parts, rfl, h⟩
    induction h with
    | nil => exact ⟨[], fun _ hn => (nomatch hn), rfl, rfl⟩
    | @cons x c parts chars hx _ ih =>
      obtain ⟨n, hn, rfl, hc⟩ := exists_numeral (reads_character_iff.1 hx)
      obtain ⟨ns, hns, hbody, hchars⟩ := ih
      refine ⟨n :: ns, List.forall_mem_cons.2 ⟨hn, hns⟩, ?_, ?_⟩
      · rw [List.flatten_cons, hbody, List.flatMap_cons]
      · rw [List.map_cons, List.map_cons, hc, hchars]
  · rintro ⟨ns, hns, rfl, h⟩
    refine ⟨rfl, ns.map bytes, List.flatMap_def, ?_⟩
    induction ns generalizing chars with
    | nil =>
      obtain rfl := List.map_eq_nil_iff.1 h.symm
      exact .nil
    | cons n ns ih =>
      cases chars with
      | nil => cases h
      | cons c chars =>
        obtain ⟨hn, hns⟩ := List.forall_mem_cons.1 hns
        injection h with hc hchars
        have hread : Reads bigInteger L d n.bytes n.value := reads_bigInteger hn
        rw [hc] at hread
        exact .cons (reads_character_iff.2 hread) (ih hns hchars)

theorem stops_character (h : n.Admitted L) (hn : ¬ IsScalar n.value) :
    Stops more character L d n.bytes
      (notCharacter n.value) := by
  rw [character_eq]
  by_cases hw : Width.w64.Fits n.value
  · have hcode : Stops more (characterOf (Int64.ofInt n.value)) L d [] (notCharacter n.value) := by
      intro p rest _
      rw [characterOf, Width.toInt_ofInt64 hw, char?_eq_none_iff.2 hn, notCharacter, if_pos hw]
      rfl
    have hstops := (reads_integer_of_fits (d := d) h hw).bind_stops hcode
    rwa [List.append_nil] at hstops
  · have hstops : Stops more (integer .w64) L d n.bytes _ := stops_integer_of_not_fits h hw
    rw [Width.reported_of_not_fits hw] at hstops
    rw [notCharacter, if_neg hw]
    exact hstops.bind

/-- A list of the numbers of characters is read to the text of these. -/
theorem reads_text (h : ∀ n ∈ ns, n.Admitted L) (hlen : ns.length < 256 ^ 4)
    (hl : ns.length ≤ L.maxElements) (hns : ns.map value = chars.map fun c => (c.toNat : Int)) :
    Reads text L d (listBytes ns) (String.ofList chars) := by
  have hchars : Reads (repeated chars.length character) L d (ns.flatMap bytes) chars :=
    reads_characters_iff.2 ⟨ns, h, rfl, hns⟩
  refine reads_text_iff.2 ⟨.list, _, rfl, ?_⟩
  rw [length_of_values hns] at hlen hl ⊢
  exact .characters hlen hl hchars

/-- A list in which this element is the first that is no number of a character. -/
theorem stops_text (h : ∀ n ∈ ns, n.Admitted L) (hlen : ns.length < 256 ^ 4)
    (hl : ns.length ≤ L.maxElements) (hns : ns = before ++ n :: after)
    (hbefore : ∀ m ∈ before, IsScalar m.value) (hn : ¬ IsScalar n.value) :
    Stops more text L d
      (Tag.list.byte :: (Digits.bigEndian 4 ns.length ++ (before.flatMap bytes ++ n.bytes)))
      (notCharacter n.value) := by
  have hadmitted : (∀ m ∈ before, m.Admitted L) ∧ n.Admitted L := by
    rw [hns] at h
    exact ⟨fun m hm => h m (List.mem_append_left _ hm), h n (by simp)⟩
  obtain ⟨chars, hchars⟩ := exists_chars hbefore
  have hread : Reads (repeated chars.length character) L d (before.flatMap bytes) chars :=
    reads_characters_iff.2 ⟨before, hadmitted.1, rfl, hchars⟩
  have hrepeated : Stops more (repeated ns.length character) L d
      (before.flatMap bytes ++ n.bytes) (notCharacter n.value) := by
    refine stops_repeated composed.character hread ?_ (stops_character hadmitted.2 hn)
    rw [hns, ← length_of_values hchars, List.length_append, List.length_cons]
    omega
  have hcount : Reads listCount L d (Digits.bigEndian 4 ns.length) ns.length :=
    reads_listCount_iff.2 ⟨hlen, hl, rfl⟩
  exact (reads_byte Tag.list.byte).bind_stops (hcount.bind_stops hrepeated.bind)

theorem text_of_first (h : ∀ n ∈ ns, n.Admitted L) (hlen : ns.length < 256 ^ 4)
    (hl : ns.length ≤ L.maxElements) (hns : ns = before ++ n :: after)
    (hbefore : ∀ m ∈ before, IsScalar m.value) (hn : ¬ IsScalar n.value) (p : Nat)
    (rest : List UInt8) :
    text (memory L d p (listBytes ns ++ rest)) =
      .error (notCharacter n.value)
        (memory L d (p + (5 + (before.flatMap bytes ++ n.bytes).length))
          (after.flatMap bytes ++ Tag.nil.byte :: rest)) := by
  have hstops : Stops (fun _ => True) text L d _ _ := stops_text h hlen hl hns hbefore hn
  have hrun := hstops p (after.flatMap bytes ++ Tag.nil.byte :: rest) trivial
  rwa [← listBytes_append hns, List.length_cons, List.length_append, Digits.length_bigEndian,
    Nat.add_right_comm] at hrun

end

end Numeral

/-- Without limits, a list of integers is read as a text if and only if all of them are Unicode
scalar values. The text is made of the characters of these numbers. Otherwise reading stops right
after the first element that is none, and reports it as such, or, if it exceeds 64 bits, as an
overflow of these. -/
theorem text_of_numerals (ns : List Numeral) (hlen : ns.length < 256 ^ 4) (d p : Nat)
    (rest : List UInt8) :
    let r := memory .unbounded d p (Numeral.listBytes ns ++ rest)
    ((∃ s r', text r = .ok s r') ↔ ∀ n ∈ ns, IsScalar n.value) ∧
    (∀ s r', text r = .ok s r' →
      (s.toList.map fun c => (c.toNat : Int)) = ns.map Numeral.value ∧
        r' = memory .unbounded d (p + (Numeral.listBytes ns).length) rest) ∧
    ∀ before n after, ns = before ++ n :: after → (∀ m ∈ before, IsScalar m.value) →
      ¬ IsScalar n.value → text r = .error (notCharacter n.value)
        (memory .unbounded d (p + (5 + (before.flatMap Numeral.bytes ++ n.bytes).length))
          (after.flatMap Numeral.bytes ++ Tag.nil.byte :: rest)) := by
  intro r
  have hadmitted : ∀ n ∈ ns, n.Admitted .unbounded := fun n _ => n.admitted_unbounded
  have hl : ns.length ≤ Limits.unbounded.maxElements :=
    Nat.le_trans (Nat.le_of_lt hlen) (by decide)
  have hread {chars : List Char} (h : ns.map Numeral.value = chars.map fun c => (c.toNat : Int)) :
      text r = .ok (String.ofList chars)
        (memory .unbounded d (p + (Numeral.listBytes ns).length) rest) :=
    Numeral.reads_text hadmitted hlen hl h p rest
  have hiff : (∃ s r', text r = .ok s r') ↔ ∀ n ∈ ns, IsScalar n.value := by
    constructor
    · rintro ⟨s, r', h⟩
      by_contra hall
      obtain ⟨before, n, after, hns, hbefore, hn⟩ := Numeral.exists_first hall
      have herror := Numeral.text_of_first (d := d) hadmitted hlen hl hns hbefore hn p rest
      cases h.symm.trans herror
    · intro hall
      obtain ⟨chars, hchars⟩ := Numeral.exists_chars hall
      exact ⟨_, _, hread hchars⟩
  refine ⟨hiff, fun s r' h => ?_, fun before n after hns hbefore hn => ?_⟩
  · obtain ⟨chars, hchars⟩ := Numeral.exists_chars (hiff.1 ⟨s, r', h⟩)
    cases h.symm.trans (hread hchars)
    exact ⟨by rw [String.toList_ofList, hchars], rfl⟩
  · exact Numeral.text_of_first hadmitted hlen hl hns hbefore hn p rest

/-- The characters of "aä" as a byte and as digits with a needless zero, and a list whose second
element is a surrogate. -/
theorem text_of_numerals_surrogate :
    (∃ s r', text (memory .unbounded 0 0 [108, 0, 0, 0, 2, 97, 97, 110, 2, 0, 228, 0, 106]) =
        .ok s r' ∧
      (s.toList.map fun c => (c.toNat : Int)) = [97, 228] ∧ r' = memory .unbounded 0 13 []) ∧
    text (memory .unbounded 0 0 [108, 0, 0, 0, 3, 97, 97, 98, 0, 0, 216, 0, 97, 98, 106]) =
      .error (.invalidCodePoint 0xD800) (memory .unbounded 0 12 [97, 98, 106]) := by
  let a : Numeral := ⟨.smallInteger, _, _, .small 97⟩
  let b : Numeral := ⟨.smallInteger, _, _, .small 98⟩
  let umlaut : Numeral := ⟨.smallBig, _, _, .big false [228, 0] (by decide)⟩
  let surrogate : Numeral := ⟨.integer, _, _, .word 0xD800⟩
  have hgood : Numeral.listBytes [a, umlaut] ++ [] =
      [108, 0, 0, 0, 2, 97, 97, 110, 2, 0, 228, 0, 106] := by decide
  have hbad : Numeral.listBytes [a, surrogate, b] ++ [] =
      [108, 0, 0, 0, 3, 97, 97, 98, 0, 0, 216, 0, 97, 98, 106] := by decide
  obtain ⟨hiff, htext, -⟩ := text_of_numerals [a, umlaut] (by decide) 0 0 []
  obtain ⟨-, -, hfirst⟩ := text_of_numerals [a, surrogate, b] (by decide) 0 0 []
  rw [hgood] at hiff htext
  rw [hbad] at hfirst
  obtain ⟨s, r', h⟩ := hiff.2 (by decide)
  exact ⟨⟨s, r', h, htext s r' h⟩, hfirst [a] surrogate [b] rfl (by decide) (by decide)⟩

/-- Not every element that is no number of a character is reported as such: 2^64. -/
theorem not_text_of_numerals :
    ¬ ∀ ns : List Numeral, ns.length < 256 ^ 4 → ¬ (∀ n ∈ ns, IsScalar n.value) →
      ∃ n ∈ ns, ∃ r, text (fresh .unbounded (Numeral.listBytes ns)) =
        .error (.invalidCodePoint n.value) r := by
  intro hall
  let n : Numeral := ⟨.smallBig, _, _, .big false [0, 0, 0, 0, 0, 0, 0, 0, 1] (by decide)⟩
  have hn : ¬ IsScalar n.value := by decide
  have hw : ¬ Width.w64.Fits n.value := by decide
  obtain ⟨m, -, r, hr⟩ := hall [n] (by decide) fun h => hn (h n (.head _))
  have hstops : Stops (fun _ => True) text .unbounded 0 _ (notCharacter n.value) :=
    Numeral.stops_text (fun m _ => m.admitted_unbounded) (by decide) (by decide)
      (List.nil_append [n]).symm (fun _ h => nomatch h) hn
  rw [notCharacter, if_neg hw] at hstops
  rw [← List.append_nil (Numeral.listBytes [n]),
    Numeral.listBytes_append (List.nil_append [n]).symm []] at hr
  cases hr.symm.trans (hstops 0 [Tag.nil.byte] trivial)

end ExternalTerm
