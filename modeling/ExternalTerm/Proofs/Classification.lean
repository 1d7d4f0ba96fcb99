import ExternalTerm.Proofs.Agreement
import Mathlib.Data.List.Forall2

/-!
# Classification

Which values have a term, which term it is, and what is reported for the others.

* `Value.leaves` : the values inside a value that have no others inside, in the order of elements
  and fields;
* `Value.fault?` : what is wrong with a leaf for which there is no term;
* `Mirrors v t` : the term `t` has the parts of the value `v`, in their order;
* `toTerm_eq_error_iff`, `toTerm_eq_ok_iff` : a value has the term that mirrors it, or its first
  fault is reported;
* `classification` : so it is known before anything is written whether a value has a term.
-/

namespace ExternalTerm

/-! ## Words of 32 bits -/

/-- Words of one value are one word. -/
theorem toInt32_eq_iff {k k' : Int32} {n : Int} (h : k'.toInt = n) : k.toInt = n ↔ k = k' := by
  rw [← h, Int32.toInt_inj]

theorem toInt32_char (c : Char) : (Int32.ofNat c.toNat).toInt = c.toNat :=
  Int32.toInt_ofNat_of_lt (Nat.lt_trans (Utf8.toNat_char_lt c) (by decide))

/-! ## Leaves -/

def MachineType.wide : MachineType → Bool
  | signed .w64 | unsigned .w32 | unsigned .w64 => true
  | _ => false

theorem MachineInt.fits_of_not_wide (n : MachineInt) (h : n.type.wide = false) :
    Width.w32.Fits n.value := by
  obtain ⟨type, value, holds⟩ := n
  rw [Width.fits_w32_iff]
  rcases type with w | w <;> cases w <;>
    simp [MachineType.wide, MachineType.Holds, Width.Fits, Width.bits] at h holds ⊢ <;> omega

namespace Value

def parts : Value → List Value
  | list vs => vs
  | record fields => fields.map Field.value
  | boxed v => [v]
  | _ => []

/-- Induction over values: what holds of a value when it holds of its parts holds of all. -/
@[elab_as_elim]
theorem induct {P : Value → Prop} (v : Value) (step : ∀ v, (∀ u ∈ v.parts, P u) → P v) : P v :=
  have leaf (v : Value) (h : v.parts = []) : P v := step v fun u hu => by
    rw [h] at hu
    cases hu
  @Value.rec P (fun vs => ∀ v ∈ vs, P v) (fun fields => ∀ f ∈ fields, P f.value)
    (fun f => P f.value)
    (fun _ => leaf _ rfl) (fun _ => leaf _ rfl) (fun _ => leaf _ rfl) (fun _ => leaf _ rfl)
    (leaf _ rfl) (fun _ => leaf _ rfl) (fun _ => leaf _ rfl) (fun _ => leaf _ rfl)
    (fun _ => leaf _ rfl) (fun _ => leaf _ rfl)
    (fun vs h => step (list vs) h)
    (fun fields h => step (record fields) (List.forall_mem_map.2 h))
    (fun v h => step (boxed v) (List.forall_mem_singleton.2 h))
    (fun _ h => nomatch h) (fun _ _ hv hvs => List.forall_mem_cons.2 ⟨hv, hvs⟩)
    (fun _ h => nomatch h) (fun _ _ hf hfs => List.forall_mem_cons.2 ⟨hf, hfs⟩)
    (fun _ _ h => h) v

mutual

/-- The values inside a value that have no others inside, in the order of elements and fields. -/
def leaves : Value → List Value
  | list vs => allLeaves vs
  | record fields => fieldLeaves fields
  | boxed v => leaves v
  | v => [v]

def allLeaves : List Value → List Value
  | [] => []
  | v :: vs => leaves v ++ allLeaves vs

def fieldLeaves : List (Field Value) → List Value
  | [] => []
  | ⟨_, v⟩ :: fields => leaves v ++ fieldLeaves fields

end

def fault? : Value → Option EncodeError
  | float precision => some (.unclassifiable precision)
  | machine n =>
    if n.type.wide ∧ ¬ Width.w32.Fits n.value then some (.integerOutOfRange n.value) else none
  | _ => none

/-- The leaves that have a fault: floating-point numbers, and integers of wide types outside the
32-bit range. -/
theorem fault?_ne_none_iff {v : Value} : v.fault? ≠ none ↔ (∃ p, v = float p) ∨
    ∃ n, v = machine n ∧ n.type.wide ∧ ¬ Width.w32.Fits n.value := by
  cases v with
  | float p => simp [fault?]
  | machine n => simp [fault?]
  | _ => simp [fault?]

def firstFault? (v : Value) : Option EncodeError := v.leaves.findSome? fault?

section
variable {v : Value} {vs : List Value} {fields : List (Field Value)} {e : EncodeError} {t : Term}
  {ts : List Term}

theorem allLeaves_eq_flatMap (vs : List Value) : allLeaves vs = vs.flatMap leaves := by
  induction vs with
  | nil => rfl
  | cons v vs ih => rw [allLeaves, ih, List.flatMap_cons]

theorem fieldLeaves_eq_allLeaves (fields : List (Field Value)) :
    fieldLeaves fields = allLeaves (fields.map Field.value) := by
  induction fields with
  | nil => rfl
  | cons f fields ih => rw [fieldLeaves, ih, List.map_cons, allLeaves]

theorem firstFault?_list : (list vs).firstFault? = vs.findSome? firstFault? := by
  rw [firstFault?, leaves, allLeaves_eq_flatMap]
  induction vs with
  | nil => rfl
  | cons v vs ih =>
    rw [List.flatMap_cons, List.findSome?_append, ih, List.findSome?_cons]
    show v.firstFault?.or _ = _
    cases v.firstFault? <;> rfl

theorem firstFault?_record :
    (record fields).firstFault? = (fields.map Field.value).findSome? firstFault? := by
  rw [← firstFault?_list, firstFault?, leaves, fieldLeaves_eq_allLeaves]
  rfl

theorem firstFault?_ne_none_iff : v.firstFault? ≠ none ↔ (∃ p, float p ∈ v.leaves) ∨
    ∃ n, machine n ∈ v.leaves ∧ n.type.wide ∧ ¬ Width.w32.Fits n.value := by
  rw [firstFault?, ne_eq, List.findSome?_eq_none_iff]
  push Not
  simp only [fault?_ne_none_iff]
  constructor
  · rintro ⟨leaf, hleaf, ⟨p, rfl⟩ | ⟨n, rfl, hn⟩⟩
    · exact .inl ⟨p, hleaf⟩
    · exact .inr ⟨n, hleaf, hn⟩
  · rintro (⟨p, hp⟩ | ⟨n, hleaf, hn⟩)
    · exact ⟨_, hp, .inl ⟨p, rfl⟩⟩
    · exact ⟨_, hleaf, .inr ⟨n, rfl, hn⟩⟩

theorem firstFault?_leaf (h : v.leaves = [v]) : v.firstFault? = v.fault? := by
  rw [firstFault?, h]
  simp

/-! ## Terms of values -/

theorem fieldTerms_eq_toTerms (fields : List (Field Value)) :
    fieldTerms fields = toTerms (fields.map Field.value) := by
  induction fields with
  | nil => rfl
  | cons f fields ih => rw [fieldTerms, ih, List.map_cons, toTerms]

theorem toTerm_list : (list vs).toTerm = toTerms vs >>= fun ts => pure (.list ts) := by
  rw [toTerm]

theorem toTerm_record :
    (record fields).toTerm = toTerms (fields.map Field.value) >>= fun ts => pure (.tuple ts) := by
  rw [toTerm, fieldTerms_eq_toTerms]

/-- The terms of a sequence end at the first value that has none. -/
theorem toTerms_eq_error_iff (h : ∀ v ∈ vs, ∀ e, v.toTerm = .error e ↔ v.firstFault? = some e) :
    toTerms vs = .error e ↔ vs.findSome? firstFault? = some e := by
  induction vs with
  | nil => simp [toTerms]
  | cons v vs ih =>
    obtain ⟨hv, hvs⟩ := List.forall_mem_cons.1 h
    rw [toTerms, List.findSome?_cons]
    cases hterm : v.toTerm with
    | error e' =>
      rw [(hv e').1 hterm]
      show Except.error e' = Except.error e ↔ some e' = some e
      simp
    | ok t =>
      have hnone : v.firstFault? = none := by
        apply Option.eq_none_iff_forall_ne_some.2
        intro e' he'
        rw [(hv e').2 he'] at hterm
        cases hterm
      rw [hnone]
      exact map_eq_error_iff.trans (ih hvs)

theorem toTerms_eq_ok_iff {R : Value → Term → Prop}
    (h : ∀ v ∈ vs, ∀ t, v.toTerm = .ok t ↔ R v t) :
    toTerms vs = .ok ts ↔ List.Forall₂ R vs ts := by
  induction vs generalizing ts with
  | nil => rw [toTerms, List.forall₂_nil_left_iff, Except.ok.injEq, eq_comm]
  | cons v vs ih =>
    obtain ⟨hv, hvs⟩ := List.forall_mem_cons.1 h
    rw [toTerms, List.forall₂_cons_left_iff]
    simp only [← ih hvs, ← hv]
    cases v.toTerm with
    | error e =>
      refine iff_of_false nofun ?_
      rintro ⟨t, us, ht, -⟩
      cases ht
    | ok t =>
      show (toTerms vs >>= fun us => pure (t :: us)) = .ok ts ↔ _
      rw [map_eq_ok_iff]
      simp [eq_comm]

end

end Value

/-- The term has the parts of the value, in their order: texts, names and integers are kept, an
integer being an `int` if it is in the 32-bit range; sequences are lists, records are tuples, and
boxes do not show. -/
inductive Mirrors : Value → Term → Prop
  | machine {n : MachineInt} {k : Int32} (h : k.toInt = n.value) : Mirrors (.machine n) (.int k)
  | true : Mirrors (.bool true) (.atom "true")
  | false : Mirrors (.bool false) (.atom "false")
  | char {c : Char} {k : Int32} (h : k.toInt = c.toNat) : Mirrors (.char c) (.int k)
  | unit : Mirrors .unit (.tuple [])
  | string (s : String) : Mirrors (.string s) (.text s)
  | atom (a : Atom) : Mirrors (.atom a) (.atom a.name)
  | taggedAtom (s : String) : Mirrors (.tagged ⟨s, .atom⟩) (.atom s)
  | taggedString (s : String) : Mirrors (.tagged ⟨s, .string⟩) (.text s)
  | small {n : Int} {k : Int32} (h : k.toInt = n) : Mirrors (.integer n) (.int k)
  | large {n : Int} (h : ¬ Width.w32.Fits n) : Mirrors (.integer n) (.bigInt n)
  | term (t : Term) : Mirrors (.term t) t
  | list {vs : List Value} {ts : List Term} (h : List.Forall₂ Mirrors vs ts) :
      Mirrors (.list vs) (.list ts)
  | record {fields : List (Field Value)} {ts : List Term}
      (h : List.Forall₂ Mirrors (fields.map Field.value) ts) :
      Mirrors (.record fields) (.tuple ts)
  | boxed {v : Value} {t : Term} (h : Mirrors v t) : Mirrors (.boxed v) t

namespace Value

section
variable {v : Value} {e : EncodeError} {t : Term}

/-- There is no term exactly for the values that have a fault, and the first one is reported. -/
theorem toTerm_eq_error_iff : v.toTerm = .error e ↔ v.firstFault? = some e := by
  induction v using induct generalizing e with
  | step v ih =>
  cases v with
  | machine n =>
    rw [firstFault?_leaf rfl, toTerm, fault?]
    by_cases hn : Width.w32.Fits n.value
    · simp [hn]
    · have hwide : n.type.wide = true := by
        by_contra hwide
        exact hn (n.fits_of_not_wide (Bool.not_eq_true _ ▸ hwide))
      simp [hn, hwide]
  | float p =>
    rw [firstFault?_leaf rfl, toTerm, fault?]
    simp
  | list vs =>
    rw [firstFault?_list, toTerm_list, map_eq_error_iff]
    exact toTerms_eq_error_iff fun u hu e => ih u hu
  | record fields =>
    rw [firstFault?_record, toTerm_record, map_eq_error_iff]
    exact toTerms_eq_error_iff fun u hu e => ih u hu
  | boxed v =>
    have hv : v.toTerm = .error e ↔ v.firstFault? = some e := ih v (List.mem_singleton_self v)
    rw [toTerm, hv]
    rfl
  | _ =>
    rw [firstFault?_leaf rfl, toTerm]
    exact iff_of_false nofun nofun

theorem toTerm_machine_iff {n : MachineInt} :
    (machine n).toTerm = .ok t ↔ Mirrors (.machine n) t := by
  rw [toTerm]
  split
  next hn =>
    have hint := Width.toInt_ofInt32 hn
    constructor
    · intro h
      cases h
      exact .machine hint
    · rintro ⟨h⟩
      rw [(toInt32_eq_iff hint).1 h]
  next hn =>
    refine iff_of_false nofun ?_
    rintro ⟨h⟩
    exact hn (h ▸ Width.fits_toInt32 _)

theorem toTerm_integer_iff {n : Int} : (integer n).toTerm = .ok t ↔ Mirrors (.integer n) t := by
  show Except.ok (Term.ofInteger n) = _ ↔ _
  by_cases hn : Width.w32.Fits n
  · have hint := Width.toInt_ofInt32 hn
    rw [Term.ofInteger, if_pos hn]
    constructor
    · intro h
      cases h
      exact .small hint
    · intro h
      cases h with
      | small h => rw [(toInt32_eq_iff hint).1 h]
      | large h => exact absurd hn h
  · rw [Term.ofInteger, if_neg hn]
    constructor
    · intro h
      cases h
      exact .large hn
    · intro h
      cases h with
      | small h => exact absurd (h ▸ Width.fits_toInt32 _) hn
      | large h => rfl

/-- The term of a value, if it has one, is the term that mirrors it. -/
theorem toTerm_eq_ok_iff : v.toTerm = .ok t ↔ Mirrors v t := by
  induction v using induct generalizing t with
  | step v ih =>
  cases v with
  | machine n => exact toTerm_machine_iff
  | float p => exact iff_of_false nofun nofun
  | char c =>
    constructor
    · intro h
      cases h
      exact .char (toInt32_char c)
    · intro h
      cases h with
      | char h =>
        rw [(toInt32_eq_iff (toInt32_char c)).1 h]
        rfl
  | integer n => exact toTerm_integer_iff
  | list vs =>
    have hvs (ts : List Term) : toTerms vs = .ok ts ↔ List.Forall₂ Mirrors vs ts :=
      toTerms_eq_ok_iff fun u hu t => ih u hu
    rw [toTerm_list, map_eq_ok_iff]
    simp only [hvs]
    constructor
    · rintro ⟨ts, h, rfl⟩
      exact .list h
    · intro h
      cases h with
      | list h => exact ⟨_, h, rfl⟩
  | record fields =>
    have hvs (ts : List Term) : toTerms (fields.map Field.value) = .ok ts ↔
        List.Forall₂ Mirrors (fields.map Field.value) ts :=
      toTerms_eq_ok_iff fun u hu t => ih u hu
    rw [toTerm_record, map_eq_ok_iff]
    simp only [hvs]
    constructor
    · rintro ⟨ts, h, rfl⟩
      exact .record h
    · intro h
      cases h with
      | record h => exact ⟨_, h, rfl⟩
  | boxed v =>
    rw [toTerm, ih v (List.mem_singleton_self v)]
    constructor
    · exact .boxed
    · intro h
      cases h with
      | boxed h => exact h
  | bool b =>
    constructor
    · intro h
      cases h
      cases b <;> constructor
    · intro h
      cases h <;> rfl
  | tagged x =>
    obtain ⟨s, family⟩ := x
    constructor
    · intro h
      cases h
      cases family <;> constructor
    · intro h
      cases h <;> rfl
  | _ =>
    constructor
    · intro h
      cases h
      constructor
    · intro h
      cases h
      rfl

end

/-- A value has no term if and only if there is, somewhere in it, a floating-point number or an
integer of a wide type outside the 32-bit range. The first of these, in the order of elements and
fields, is the one that is reported, before anything is written, whatever the sink. Any other value
has the term that mirrors it, and no other. -/
theorem classification (v : Value) :
    ((∃ e, v.toTerm = .error e) ↔ (∃ p, float p ∈ v.leaves) ∨
      ∃ n, machine n ∈ v.leaves ∧ n.type.wide ∧ ¬ Width.w32.Fits n.value) ∧
    (∀ e, v.toTerm = .error e ↔ ∃ before leaf after, v.leaves = before ++ leaf :: after ∧
      leaf.fault? = some e ∧ ∀ u ∈ before, u.fault? = none) ∧
    (∀ e, v.toTerm = .error e → (∀ s, encode v s = .error e s) ∧ toBytes v = .error e) ∧
    ∀ t, v.toTerm = .ok t ↔ Mirrors v t := by
  refine ⟨?_, fun e => ?_, fun e h => ⟨encode_of_error h, toBytes_of_error h⟩,
    fun t => toTerm_eq_ok_iff⟩
  · simp only [toTerm_eq_error_iff]
    rw [← Option.ne_none_iff_exists', firstFault?_ne_none_iff]
  · rw [toTerm_eq_error_iff, firstFault?, List.findSome?_eq_some_iff]

/-- The second of two machine integers in a list is out of range, and comes before a floating-point
number. -/
theorem classification_nested :
    let small : Value := .machine ⟨.signed .w64, 5, by decide⟩
    let large : Value := .machine ⟨.unsigned .w32, 4294967295, by decide⟩
    let v : Value := .record [⟨some "id", .integer 7⟩,
      ⟨some "sizes", .list [small, .boxed large]⟩, ⟨some "ratio", .float .single⟩]
    v.toTerm = .error (.integerOutOfRange 4294967295) ∧
      ∀ s, encode v s = .error (.integerOutOfRange 4294967295) s := by
  intro small large v
  obtain ⟨-, herror, hencode, -⟩ := classification v
  have hbefore : ∀ u ∈ [.integer 7, small], u.fault? = none := by
    simp only [List.forall_mem_cons]
    exact ⟨rfl, rfl, List.forall_mem_nil _⟩
  have h := (herror _).2 ⟨[.integer 7, small], large, [.float .single], rfl, rfl, hbefore⟩
  exact ⟨h, (hencode _ h).1⟩

end Value

end ExternalTerm
