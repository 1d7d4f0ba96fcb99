import ExternalTerm.Limits
import ExternalTerm.Proofs.Encoding

/-!
# Terms within limits

* `Term.induct` : induction over terms, with a hypothesis for every element;
* `Term.normalize` : the term with every integer in the form that its value has;
* `Term.Within t L` : no name, text, arity, count or nesting in `t` exceeds its limit.
-/

namespace ExternalTerm

/-- The limits that are left inside `d` tuples and lists. -/
def Limits.inside (L : Limits) (d : Nat) : Limits := { L with maxDepth := L.maxDepth - d }

@[simp] theorem Limits.inside_zero (L : Limits) : L.inside 0 = L := rfl

namespace Term

/-- Induction over terms: what holds of a term when it holds of its elements holds of all. -/
@[elab_as_elim]
theorem induct {P : Term → Prop} (t : Term)
    (step : ∀ t, (∀ ts, t.elements? = some ts → ∀ u ∈ ts, P u) → P t) : P t :=
  @Term.rec P (fun ts => ∀ t ∈ ts, P t)
    (fun s => step (.atom s) fun _ h => nomatch h)
    (fun s => step (.text s) fun _ h => nomatch h)
    (fun n => step (.int n) fun _ h => nomatch h)
    (fun n => step (.bigInt n) fun _ h => nomatch h)
    (fun ts h => step (.tuple ts) fun _ hts => Option.some.inj hts ▸ h)
    (fun ts h => step (.list ts) fun _ hts => Option.some.inj hts ▸ h)
    (fun _ h => nomatch h) (fun _ _ ht hts => List.forall_mem_cons.2 ⟨ht, hts⟩) t

theorem self_mem_nodes (t : Term) : t ∈ t.nodes := by
  cases t <;> exact List.mem_cons_self

/-! ## Normal terms -/

mutual

/-- The term with every integer in the form that its value has. -/
def normalize : Term → Term
  | bigInt n => ofInteger n
  | tuple ts => tuple (normalizeAll ts)
  | list ts => list (normalizeAll ts)
  | t => t

def normalizeAll : List Term → List Term
  | [] => []
  | t :: ts => normalize t :: normalizeAll ts

end

theorem normalizeAll_eq_map (ts : List Term) : normalizeAll ts = ts.map normalize := by
  induction ts with
  | nil => rfl
  | cons t ts ih => rw [normalizeAll, ih, List.map_cons]

/-! ## Extents -/

/-- The length of the run of bytes that the encoding of the node itself contains. -/
def payload : Term → Nat
  | atom s | text s => Utf8.size s
  | bigInt n => if Width.w32.Fits n then 0 else Digits.byteLength n.natAbs
  | int _ | tuple _ | list _ => 0

def count : Term → Nat
  | tuple ts | list ts => ts.length
  | _ => 0

mutual

/-- The depth of the nesting of tuples and lists; one without elements counts as well. -/
def nesting : Term → Nat
  | tuple ts | list ts => nestings ts + 1
  | _ => 0

def nestings : List Term → Nat
  | [] => 0
  | t :: ts => max (nesting t) (nestings ts)

end

theorem nestings_le_iff {ts : List Term} {k : Nat} :
    nestings ts ≤ k ↔ ∀ t ∈ ts, t.nesting ≤ k := by
  induction ts with
  | nil => simp [nestings]
  | cons t ts ih => simp [nestings, ih]

structure Within (t : Term) (L : Limits) : Prop where
  payload : ∀ u ∈ t.nodes, u.payload ≤ L.maxPayload
  count : ∀ u ∈ t.nodes, u.count ≤ L.maxElements
  nesting : t.nesting ≤ L.maxDepth

theorem within_iff {t : Term} {L : Limits} :
    t.Within L ↔ (∀ u ∈ t.nodes, u.payload ≤ L.maxPayload) ∧
      (∀ u ∈ t.nodes, u.count ≤ L.maxElements) ∧ t.nesting ≤ L.maxDepth :=
  ⟨fun h => ⟨h.payload, h.count, h.nesting⟩, fun h => ⟨h.1, h.2.1, h.2.2⟩⟩

instance (t : Term) (L : Limits) : Decidable (t.Within L) := decidable_of_iff _ within_iff.symm

section
variable {ts : List Term} {L : Limits} {d : Nat}

/-- A term without elements is within limits when its own run of bytes is. -/
theorem within_iff_payload {t : Term} (h : t.nodes = [t]) (hc : t.count = 0)
    (hn : t.nesting = 0) : t.Within L ↔ t.payload ≤ L.maxPayload := by
  rw [within_iff, h, hn]
  simp [hc]

theorem Within.payload_le {t : Term} (h : t.Within (L.inside d)) : t.payload ≤ L.maxPayload :=
  h.payload t t.self_mem_nodes

theorem mem_allNodes {u : Term} : u ∈ allNodes ts ↔ ∃ t ∈ ts, u ∈ t.nodes := by
  rw [allNodes_eq_flatMap, List.mem_flatMap]

theorem within_elements {t : Term} (ht : t.nodes = t :: allNodes ts) (hp : t.payload = 0)
    (hc : t.count = ts.length) (hn : t.nesting = nestings ts + 1) :
    t.Within (L.inside d) ↔
      ts.length ≤ L.maxElements ∧ d < L.maxDepth ∧ ∀ t ∈ ts, t.Within (L.inside (d + 1)) := by
  have hdepth : nestings ts + 1 ≤ L.maxDepth - d ↔
      d < L.maxDepth ∧ nestings ts ≤ L.maxDepth - (d + 1) := by omega
  simp only [within_iff, ht, hn, Limits.inside, List.forall_mem_cons, hp, hc, mem_allNodes,
    hdepth, nestings_le_iff]
  refine ⟨fun h => ?_, fun h => ?_⟩
  · obtain ⟨⟨-, hp⟩, ⟨hc, hcs⟩, hd, hn⟩ := h
    exact ⟨hc, hd, fun t ht => ⟨fun u hu => hp u ⟨t, ht, hu⟩, fun u hu => hcs u ⟨t, ht, hu⟩,
      hn t ht⟩⟩
  · obtain ⟨hc, hd, h⟩ := h
    exact ⟨⟨Nat.zero_le _, fun u ⟨t, ht, hu⟩ => (h t ht).1 u hu⟩,
      ⟨hc, fun u ⟨t, ht, hu⟩ => (h t ht).2.1 u hu⟩, hd, fun t ht => (h t ht).2.2⟩

theorem within_tuple_iff :
    (tuple ts).Within (L.inside d) ↔
      ts.length ≤ L.maxElements ∧ d < L.maxDepth ∧ ∀ t ∈ ts, t.Within (L.inside (d + 1)) :=
  within_elements rfl rfl rfl rfl

theorem within_list_iff :
    (list ts).Within (L.inside d) ↔
      ts.length ≤ L.maxElements ∧ d < L.maxDepth ∧ ∀ t ∈ ts, t.Within (L.inside (d + 1)) :=
  within_elements rfl rfl rfl rfl

/-! ## Elements that can be written -/

theorem allFirstFault?_eq_none_iff : allFirstFault? ts = none ↔ ∀ t ∈ ts, t.Encodable := by
  induction ts with
  | nil => simp [allFirstFault?, allNodes]
  | cons t ts ih => rw [allFirstFault?_cons, Option.or_eq_none_iff, ih, List.forall_mem_cons]; rfl

theorem encodable_tuple_iff :
    (tuple ts).Encodable ↔ ts.length ≤ largeLengthMax ∧ ∀ t ∈ ts, t.Encodable := by
  rw [Encodable, firstFault?_tuple, Option.or_eq_none_iff, allFirstFault?_eq_none_iff, fault?]
  simp

theorem encodable_list_iff :
    (list ts).Encodable ↔ ts.length ≤ largeLengthMax ∧ ∀ t ∈ ts, t.Encodable := by
  rw [Encodable, firstFault?_list, Option.or_eq_none_iff, allFirstFault?_eq_none_iff, fault?]
  simp

theorem Encodable.elements {t : Term} (h : t.Encodable) (ht : t.elements? = some ts) :
    ts.length ≤ largeLengthMax ∧ ∀ u ∈ ts, u.Encodable := by
  cases t <;> cases ht
  · exact encodable_tuple_iff.1 h
  · exact encodable_list_iff.1 h

/-! ## Encodings within the bounds of a machine -/

theorem encodable_iff {t : Term} : t.Encodable ↔ ∀ u ∈ t.nodes, u.fault? = none :=
  List.findSome?_eq_none_iff

theorem extent_le_of_fault?_eq_none {t : Term} (h : t.fault? = none) :
    t.payload ≤ largeLengthMax ∧ t.count ≤ largeLengthMax := by
  have hmedium : mediumLengthMax ≤ largeLengthMax := by decide
  have hsmall : smallLengthMax ≤ largeLengthMax := by decide
  cases t with
  | atom s =>
    simp only [fault?, ite_eq_right_iff, reduceCtorEq, imp_false] at h
    exact ⟨by rw [payload]; omega, Nat.zero_le _⟩
  | text s =>
    simp only [fault?, ite_eq_right_iff, reduceCtorEq, imp_false] at h
    exact ⟨Nat.le_of_not_lt h, Nat.zero_le _⟩
  | int n => exact ⟨Nat.zero_le _, Nat.zero_le _⟩
  | bigInt n =>
    simp only [fault?_bigInt, ite_eq_right_iff, reduceCtorEq, imp_false, not_and] at h
    refine ⟨?_, Nat.zero_le _⟩
    rw [payload]
    split
    · exact Nat.zero_le _
    · next hn =>
      have := h hn
      omega
  | tuple ts | list ts =>
    simp only [fault?, ite_eq_right_iff, reduceCtorEq, imp_false] at h
    exact ⟨Nat.zero_le _, Nat.le_of_not_lt h⟩

theorem length_encoded_le {t : Term} (h : t ∈ ts) : t.encoded.length ≤ (allEncoded ts).length := by
  induction ts with
  | nil => cases h
  | cons u ts ih =>
    rw [length_allEncoded_cons]
    rcases List.mem_cons.1 h with rfl | h
    · omega
    · have := ih h
      omega

theorem nesting_le_length (t : Term) : t.nesting ≤ t.encoded.length := by
  induction t using induct with
  | step t ih =>
  have hts (ts : List Term) (h : t.elements? = some ts) : nestings ts ≤ (allEncoded ts).length :=
    nestings_le_iff.2 fun u hu => Nat.le_trans (ih ts h u hu) (length_encoded_le hu)
  cases t with
  | tuple ts =>
    have := hts ts rfl
    rw [nesting, encoded, List.length_append, length_tupleHeader]
    split <;> omega
  | list ts =>
    have := hts ts rfl
    rw [nesting, encoded, List.length_append, length_listHeader, List.length_append]
    omega
  | _ => exact Nat.zero_le _

theorem within_unbounded_of_nesting {t : Term} (h : t.Encodable)
    (hn : t.nesting ≤ Limits.lengthBound) : t.Within .unbounded := by
  have hbound : largeLengthMax ≤ Limits.lengthBound := by decide
  have hu (u : Term) (hu : u ∈ t.nodes) := extent_le_of_fault?_eq_none (encodable_iff.1 h u hu)
  exact ⟨fun u h => Nat.le_trans (hu u h).1 hbound, fun u h => Nat.le_trans (hu u h).2 hbound, hn⟩

theorem within_unbounded {t : Term} (h : t.Encodable)
    (hlen : t.encoded.length ≤ Limits.lengthBound) :
    t.Within .unbounded :=
  within_unbounded_of_nesting h (Nat.le_trans t.nesting_le_length hlen)

end

end Term

end ExternalTerm
