import ExternalTerm.Proofs.Relay

/-!
# Bounds on what is read

The limits hold for every node of a term that is read, at the depth where it is. A string, and the
end of a list that stands for an empty one, are the exceptions: no limit counts their elements, and
they may lie one level deeper than other lists.

* `Term.Part` : a node of a term, with the number of tuples and lists around it;
* `Term.Bounded` : what the limits say about a node, given this number;
* `Reader.TermForm.bounded`, `Reader.TermForm.element` : a form obeys them, and its elements lie one
  level further in;
* `bounded_of_reads` : so all nodes obey them, by induction on the way to the node.
-/

namespace ExternalTerm

open Reader

namespace Term

/-- The node `u` of `t` has `k` tuples and lists of `t` around it. -/
inductive Part : Term → Nat → Term → Prop
  | self (t : Term) : Part t 0 t
  | element {t u v : Term} {ts : List Term} {k : Nat} (ht : t.elements? = some ts) (hu : u ∈ ts)
      (hv : Part u k v) : Part t (k + 1) v

def IsByte : Term → Prop
  | int n => 0 ≤ n.toInt ∧ n.toInt ≤ 255
  | _ => False

/-- The node exceeds no limit where it has `k` tuples and lists around it. A list without elements
or of bytes need not be within the limits of elements and depth: then its length is that of a run of
bytes, which two bytes can count, and it may be where no other list can. -/
def Bounded (L : Limits) (k : Nat) : Term → Prop
  | atom s | text s => Utf8.size s ≤ L.maxPayload
  | int _ => True
  | bigInt n => Digits.byteLength n.natAbs ≤ min 255 L.maxPayload
  | tuple ts => ts.length ≤ L.maxElements ∧ k < L.maxDepth
  | list ts => (ts.length ≤ L.maxElements ∧ k < L.maxDepth) ∨
      ((∀ t ∈ ts, t.IsByte) ∧ ts.length ≤ min 65535 L.maxPayload ∧ k ≤ L.maxDepth)

section
variable {L : Limits} {k l : Nat} {t u v : Term} {ts : List Term}

theorem isByte_int (b : UInt8) : (int (Int32.ofNat b.toNat)).IsByte := by
  have hb := b.toNat_lt
  have hvalue : (Int32.ofNat b.toNat).toInt = b.toNat :=
    Int32.toInt_ofNat_of_lt (Nat.lt_trans hb (by decide))
  show 0 ≤ (Int32.ofNat b.toNat).toInt ∧ (Int32.ofNat b.toNat).toInt ≤ 255
  rw [hvalue]
  omega

/-- There is nothing else in a byte, and no limit for it. -/
theorem IsByte.bounded (hu : u.IsByte) (hv : u.Part k v) : v.Bounded L l := by
  cases u with
  | int n =>
    rcases hv with _ | ⟨ht, -, -⟩
    · exact trivial
    · cases ht
  | _ => exact hu.elim

/-- A nesting of more than `k` levels has a tuple or a list with `k` others around it. -/
theorem exists_part (h : k < t.nesting) : ∃ u ts, t.Part k u ∧ u.elements? = some ts := by
  induction k generalizing t with
  | zero =>
    cases t with
    | tuple ts | list ts => exact ⟨_, ts, .self _, rfl⟩
    | _ => exact absurd h (Nat.lt_irrefl 0)
  | succ k ih =>
    obtain ⟨ts, ht, hts⟩ : ∃ ts, t.elements? = some ts ∧ k < nestings ts := by
      cases t with
      | tuple ts | list ts => exact ⟨ts, rfl, Nat.lt_of_succ_lt_succ h⟩
      | _ => exact absurd h (Nat.not_lt_zero _)
    obtain ⟨u, hu, hlt⟩ : ∃ u ∈ ts, k < u.nesting := by
      by_contra hall
      push Not at hall
      exact Nat.not_le.2 hts (nestings_le_iff.2 hall)
    obtain ⟨v, vs, hv, hvs⟩ := ih hlt
    exact ⟨v, vs, .element ht hu hv, hvs⟩

theorem Bounded.depth_le (h : u.Bounded L k) (hu : u.elements? = some ts) : k ≤ L.maxDepth := by
  cases u with
  | tuple => exact Nat.le_of_lt h.2
  | list =>
    rcases h with ⟨-, hk⟩ | ⟨-, -, hk⟩
    · exact Nat.le_of_lt hk
    · exact hk
  | _ => cases hu

/-- Where all nodes are bounded, there is at most one level more than the limit. -/
theorem nesting_le_of_bounded (h : ∀ k u, t.Part k u → u.Bounded L k) :
    t.nesting ≤ L.maxDepth + 1 := by
  by_contra hdeep
  obtain ⟨u, ts, hu, hts⟩ := exists_part (Nat.not_le.1 hdeep)
  have := (h _ u hu).depth_le hts
  omega

end

end Term

section
variable {L : Limits} {d k : Nat} {data body : List UInt8} {tag : Tag} {n : Int} {t u : Term}
  {ts : List Term} {R : List UInt8 → Term → Prop}

theorem IntegerForm.bounded (h : IntegerForm tag body n)
    (hl : tag = .smallBig → body.length ≤ L.maxPayload + 2) : (Term.ofInteger n).Bounded L d := by
  have hpayload := h.payload_le hl
  have hfault := h.encodable
  by_cases hn : Width.w32.Fits n
  · rw [Term.ofInteger_of_fits hn]
    exact trivial
  · rw [Term.ofInteger_of_not_fits hn] at *
    rw [Term.payload, if_neg hn] at hpayload
    rw [Term.Encodable, Term.firstFault?_of_nodes rfl, Term.fault?_bigInt] at hfault
    have hcount : Digits.byteLength n.natAbs ≤ 255 := by
      by_contra hlong
      rw [if_pos ⟨hn, Nat.not_le.1 hlong⟩] at hfault
      cases hfault
    exact le_min hcount hpayload

theorem bounded_byteList {bytes : List UInt8} (h : bytes.length < 256 ^ 2)
    (hl : bytes.length ≤ L.maxPayload) (hd : d ≤ L.maxDepth) : (byteList bytes).Bounded L d := by
  refine .inr ⟨fun u hu => ?_, ?_, hd⟩
  · obtain ⟨b, -, rfl⟩ := List.mem_map.1 hu
    apply Term.isByte_int
  · rw [List.length_map]
    exact le_min (Nat.le_of_lt_succ h) hl

namespace Reader

/-- The node that a form stands for is within the limits. -/
theorem TermForm.bounded (h : TermForm L d R tag body t) (hd : d ≤ L.maxDepth) :
    t.Bounded L d := by
  cases h with
  | integer hform hl => exact hform.bounded hl
  | atom _ _ _ hl => exact hl
  | text _ hl => exact hl
  | string hlt hl => exact bounded_byteList hlt hl hd
  | nil => exact .inr ⟨fun _ h => (List.not_mem_nil h).elim, Nat.zero_le _, hd⟩
  | tuple _ _ hl hd => exact ⟨hl, hd⟩
  | list _ hl hd => exact .inl ⟨hl, hd⟩

/-- The elements are the bytes of a string, or read where one more level is allowed. -/
theorem TermForm.element (h : TermForm L d R tag body t) (ht : t.elements? = some ts)
    (hu : u ∈ ts) : u.IsByte ∨ (d < L.maxDepth ∧ ∃ x, R x u) := by
  have hread {parts : List (List UInt8)} {as : List Term} (h : List.Forall₂ R parts as) :
      ∀ a ∈ as, ∃ x, R x a := forall_of_parts h fun x _ hx => ⟨x, hx⟩
  cases h with
  | @integer _ _ n _ _ =>
    unfold Term.ofInteger at ht
    split at ht <;> cases ht
  | atom => cases ht
  | text => cases ht
  | string =>
    cases ht
    obtain ⟨b, -, rfl⟩ := List.mem_map.1 hu
    exact .inl (Term.isByte_int b)
  | nil =>
    cases ht
    cases hu
  | tuple _ _ _ hd helements =>
    cases ht
    exact .inr ⟨hd, hread helements u hu⟩
  | list _ _ hd helements =>
    cases ht
    exact .inr ⟨hd, hread helements u hu⟩

end Reader

/-- Every node of what is read inside `d` tuples and lists is within the limits. -/
theorem bounded_of_reads (h : Reads term L d data t) (hd : d ≤ L.maxDepth) (hu : t.Part k u) :
    u.Bounded L (d + k) := by
  induction hu generalizing d data with
  | self t =>
    obtain ⟨tag, body, -, form⟩ := reads_term_form_iff.1 h
    exact form.bounded hd
  | @element t u v ts k ht hu hv ih =>
    obtain ⟨tag, body, -, form⟩ := reads_term_form_iff.1 h
    rcases form.element ht hu with hbyte | ⟨hlt, x, hx⟩
    · exact hbyte.bounded hv
    · have hdepth : d + (k + 1) = d + 1 + k := by omega
      rw [hdepth]
      exact ih hx hlt

/-- Every node of a term that a new reader has read is within the limits, so the term has at most
one level more than the limit. -/
theorem term_bounded {b : List UInt8} {r : Reader} (h : term (fresh L b) = .ok t r) :
    (∀ k u, t.Part k u → u.Bounded L k) ∧ t.nesting ≤ L.maxDepth + 1 := by
  obtain ⟨data, rest, -, hr, -⟩ := composed_term.ok_iff.1 h
  have hparts : ∀ k u, t.Part k u → u.Bounded L k := by
    intro k u hu
    have hbounded := bounded_of_reads hr (Nat.zero_le _) hu
    rwa [Nat.zero_add] at hbounded
  exact ⟨hparts, Term.nesting_le_of_bounded hparts⟩

/-- A string of two bytes inside the only tuple that there may be, where one element is the most. -/
theorem term_bounded_string :
    let L : Limits := { maxPayload := 2, maxElements := 1, maxDepth := 1 }
    term (fresh L [104, 1, 107, 0, 2, 1, 255]) =
        .ok (.tuple [.list [.int 1, .int 255]]) (memory L 0 7 []) ∧
      (Term.list [.int 1, .int 255]).Bounded L 1 ∧
      (Term.tuple [.list [.int 1, .int 255]]).nesting ≤ 2 := by
  intro L
  have h : term (fresh L [104, 1, 107, 0, 2, 1, 255]) =
      .ok (.tuple [.list [.int 1, .int 255]]) (memory L 0 7 []) := by decide +kernel
  obtain ⟨hparts, hnesting⟩ := term_bounded h
  exact ⟨h, hparts 1 _ (.element rfl (List.mem_singleton_self _) (.self _)), hnesting⟩

end

end ExternalTerm
