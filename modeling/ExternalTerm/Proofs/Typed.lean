import ExternalTerm.Proofs.Agreement
import ExternalTerm.Proofs.Message
import ExternalTerm.Proofs.Projection

/-!
# Typed values there and back

`T.Has v` says that the value `v` is of the type `T`, `v.Portable` that every part of `v` is one that
the format can carry, and `v.Within L 0` that no part of `v` exceeds the limits `L`.

* `exists_carried` : a portable value has a term, and the projection of the term on the shape of the
  type is a decoded value that stands for the value;
* `toBytes_eq`, `ofBytes_eq` : the message of such a value, and what it is decoded into.

Encoding a value and decoding the message therefore gives the value back.
-/

namespace ExternalTerm

open Reader

/-! ## Types of values -/

namespace Target

mutual

def Has : Target → Value → Prop
  | machine w, .machine n => n.type = .signed w
  | integer, .integer _ => True
  | string, .string _ => True
  | tagged, .tagged _ => True
  | term, .term _ => True
  | unit, .unit => True
  | list element, .list vs => ∀ v ∈ vs, Has element v
  | record targets, .record fields => HasFields targets fields
  | _, _ => False

def HasFields : List (Field Target) → List (Field Value) → Prop
  | [], [] => True
  | ⟨name, target⟩ :: targets, ⟨name', v⟩ :: fields =>
    name = name' ∧ Has target v ∧ HasFields targets fields
  | _, _ => False

end

mutual

/-- No part of the type is a machine integer of 8 bits. -/
def Wide : Target → Prop
  | machine w => w ≠ .w8
  | list element => element.Wide
  | record targets => WideFields targets
  | _ => True

def WideFields : List (Field Target) → Prop
  | [] => True
  | ⟨_, target⟩ :: targets => target.Wide ∧ WideFields targets

end

@[elab_as_elim]
theorem induct {P : Target → Prop} (T : Target) (machine : ∀ w, P (.machine w))
    (integer : P .integer) (string : P .string) (tagged : P .tagged) (term : P .term)
    (unit : P .unit) (list : ∀ element, P element → P (.list element))
    (record : ∀ fields, (∀ f ∈ fields, P f.value) → P (.record fields)) : P T :=
  @Target.rec P (fun fields => ∀ f ∈ fields, P f.value) (fun f => P f.value) machine integer string
    tagged term unit list record (fun _ h => nomatch h)
    (fun _ _ hf hfs => List.forall_mem_cons.2 ⟨hf, hfs⟩) (fun _ _ h => h) T

mutual

theorem check_shape : (T : Target) → T.Wide → T.shape.check = .ok ()
  | machine w, h => by cases w <;> first | exact absurd rfl h | rfl
  | list element, h => check_shape element h
  | record targets, h => check_fieldShapes targets h
  | integer, _ | string, _ | tagged, _ | term, _ | unit, _ => rfl

theorem check_fieldShapes : (targets : List (Field Target)) → WideFields targets →
    Shape.checkFields (fieldShapes targets) = .ok ()
  | [], _ => rfl
  | ⟨_, target⟩ :: targets, h => by
    rw [fieldShapes, Shape.checkFields, check_shape target h.1]
    exact check_fieldShapes targets h.2

end

end Target

namespace Value

mutual

/-- Every part of the value can be carried: machine integers of the 32-bit range, names of at most
65535 bytes, integers of at most 255 digits, and terms that have an encoding and are normal, but no
floating-point numbers. -/
def Portable : Value → Prop
  | machine n => Width.w32.Fits n.value
  | float _ => False
  | atom a => Utf8.size a.name ≤ mediumLengthMax
  | tagged t => t.isAtom → Utf8.size t.value ≤ mediumLengthMax
  | integer n => Digits.byteLength n.natAbs ≤ smallLengthMax
  | term t => t.Encodable ∧ t.normalize = t
  | list vs => AllPortable vs
  | record fields => FieldsPortable fields
  | boxed v => v.Portable
  | _ => True

def AllPortable : List Value → Prop
  | [] => True
  | v :: vs => v.Portable ∧ AllPortable vs

def FieldsPortable : List (Field Value) → Prop
  | [] => True
  | ⟨_, v⟩ :: fields => v.Portable ∧ FieldsPortable fields

end

mutual

/-- No name, text, integer, term, count or nesting in the value exceeds the limits, when the value
is inside `d` tuples and lists. -/
def Within (L : Limits) : (d : Nat) → Value → Prop
  | _, string s => Utf8.size s ≤ L.maxPayload
  | _, atom a => Utf8.size a.name ≤ L.maxPayload
  | _, tagged t => Utf8.size t.value ≤ L.maxPayload
  | _, integer n => Width.w32.Fits n ∨ Digits.byteLength n.natAbs ≤ L.maxPayload
  | d, term t => t.Within (L.inside d)
  | d, unit => d < L.maxDepth
  | d, list vs => vs.length ≤ L.maxElements ∧ d < L.maxDepth ∧ AllWithin L (d + 1) vs
  | d, record fields => fields.length ≤ L.maxElements ∧ d < L.maxDepth ∧ FieldsWithin L (d + 1) fields
  | d, boxed v => v.Within L d
  | _, _ => True

def AllWithin (L : Limits) (d : Nat) : List Value → Prop
  | [] => True
  | v :: vs => v.Within L d ∧ AllWithin L d vs

def FieldsWithin (L : Limits) (d : Nat) : List (Field Value) → Prop
  | [] => True
  | ⟨_, v⟩ :: fields => v.Within L d ∧ FieldsWithin L d fields

end

theorem allPortable_iff {vs : List Value} : AllPortable vs ↔ ∀ v ∈ vs, v.Portable := by
  induction vs with
  | nil => simp [AllPortable]
  | cons v vs ih => rw [AllPortable, ih, List.forall_mem_cons]

end Value

/-! ## From a value to a term, and on to a decoded value -/

/-- The node of a term has no fault but a length that exceeds four bytes. -/
def Term.Sound (t : Term) : Prop :=
  ∀ u ∈ t.nodes, u.payload ≤ largeLengthMax → u.count ≤ largeLengthMax → u.fault? = none

/-- The value has the term, and the decoded value, which the term has in the shape of the type,
stands for the value. -/
structure Carried (T : Target) (v : Value) (t : Term) (d : Decoded) : Prop where
  toTerm : v.toTerm = .ok t
  sound : t.Sound
  within : ∀ (L : Limits) (k : Nat), v.Within L k → t.Within (L.inside k)
  project : T.shape.project? t = some d
  ofDecoded : T.ofDecoded d = .ok v

theorem sound_of_nodes {t : Term} (h : t.nodes = [t])
    (ht : t.payload ≤ largeLengthMax → t.fault? = none) : t.Sound := by
  intro u hu hp _
  rw [h, List.mem_singleton] at hu
  subst hu
  exact ht hp

theorem sound_of_encodable {t : Term} (h : t.Encodable) : t.Sound :=
  fun u hu _ _ => Term.encodable_iff.1 h u hu

theorem sound_of_elements {t : Term} {ts : List Term} (hn : t.nodes = t :: Term.allNodes ts)
    (ht : t.count ≤ largeLengthMax → t.fault? = none) (h : ∀ u ∈ ts, u.Sound) : t.Sound := by
  intro u hu hp hc
  rw [hn, List.mem_cons, Term.mem_allNodes] at hu
  rcases hu with rfl | ⟨v, hv, hu⟩
  · exact ht hc
  · exact h v hv u hu hp hc

theorem sound_tuple {ts : List Term} (h : ∀ t ∈ ts, t.Sound) : (Term.tuple ts).Sound :=
  sound_of_elements rfl (fun hc => if_neg (Nat.not_lt.2 hc)) h

theorem sound_list {ts : List Term} (h : ∀ t ∈ ts, t.Sound) : (Term.list ts).Sound :=
  sound_of_elements rfl (fun hc => if_neg (Nat.not_lt.2 hc)) h

theorem carried_machine {w : Width} {n : MachineInt} (ht : n.type = .signed w)
    (h : Width.w32.Fits n.value) :
    Carried (.machine w) (.machine n) (.int (Int32.ofInt n.value))
      (.integer (Int64.ofInt n.value)) := by
  obtain ⟨type, value, holds⟩ := n
  subst ht
  have hw : w.Fits value := holds
  have hint : (Int32.ofInt value).toInt = value := Width.toInt_ofInt32 h
  have hint' : (Int64.ofInt value).toInt = value := Width.toInt_ofInt64 (Width.fits_w64_of_fits hw)
  refine ⟨?_, sound_of_nodes rfl fun _ => rfl, fun L k _ => ?_, ?_, ?_⟩
  · rw [Value.toTerm, if_pos h]
  · exact (Term.within_iff_payload rfl rfl rfl).2 (Nat.zero_le _)
  · rw [Target.shape, Shape.project?, Term.integer?, Option.bind_some, hint, if_pos hw]
  · simp only [Target.ofDecoded, hint', hw, dite_true]

theorem carried_integer {n : Int} (h : Digits.byteLength n.natAbs ≤ smallLengthMax) :
    Carried .integer (.integer n) (.ofInteger n) (.bigInteger n) := by
  have hint := integer?_ofInteger n
  have hfault : (Term.ofInteger n).fault? = none := by
    rw [Term.ofInteger]
    split
    next hn => rfl
    next hn => rw [Term.fault?_bigInt, if_neg fun h' => Nat.not_lt.2 h h'.2]
  refine ⟨rfl, ?_, fun L k hk => ?_, ?_, rfl⟩
  · refine sound_of_nodes ?_ fun _ => hfault
    rw [Term.ofInteger]
    split <;> rfl
  · rw [Term.within_of_integer hint, Term.ofInteger]
    split
    next hn => exact Nat.zero_le _
    next hn =>
      rw [Term.payload, if_neg hn]
      exact hk.resolve_left hn
  · rw [Target.shape, Shape.project?, hint]
    rfl

theorem carried_string (s : String) :
    Carried .string (.string s) (.text s) (.text s) := by
  refine ⟨rfl, sound_of_nodes rfl fun h => ?_, fun L k hk => ?_, rfl, rfl⟩
  · exact Term.fault?_text_eq_none_iff.2 h
  · exact (Term.within_iff_payload rfl rfl rfl).2 hk

theorem carried_tagged {t : TaggedText}
    (h : t.isAtom → Utf8.size t.value ≤ mediumLengthMax) :
    Carried .tagged (.tagged t) t.toTerm (.tagged t) := by
  obtain ⟨s, family⟩ := t
  cases family with
  | atom =>
    refine ⟨rfl, sound_of_nodes rfl fun _ => ?_, fun L k hk => ?_, rfl, rfl⟩
    · rw [TaggedText.toTerm, Term.fault?, if_neg (Nat.not_lt.2 (h rfl))]
    · exact (Term.within_iff_payload rfl rfl rfl).2 hk
  | string =>
    refine ⟨rfl, sound_of_nodes rfl fun hp => ?_, fun L k hk => ?_, rfl, rfl⟩
    · exact Term.fault?_text_eq_none_iff.2 hp
    · exact (Term.within_iff_payload rfl rfl rfl).2 hk

theorem carried_term {t : Term} (h : t.Encodable) (hn : t.normalize = t) :
    Carried .term (.term t) t (.term t) := by
  refine ⟨rfl, sound_of_encodable h, fun L k hk => hk, ?_, rfl⟩
  rw [Target.shape, Shape.project?, hn]

theorem carried_unit : Carried .unit .unit (.tuple []) (.record []) := by
  refine ⟨rfl, sound_tuple (fun _ h => nomatch h), fun L k hk => ?_, rfl, rfl⟩
  exact Term.within_tuple_iff.2 ⟨Nat.zero_le _, hk, fun _ h => nomatch h⟩

theorem carried_list {element : Target} {vs : List Value}
    (h : ∀ v ∈ vs, ∃ t d, Carried element v t d) :
    ∃ ts ds, Value.toTerms vs = .ok ts ∧ (∀ t ∈ ts, t.Sound) ∧ ts.length = vs.length ∧
      (∀ L k, Value.AllWithin L k vs → ∀ t ∈ ts, t.Within (L.inside k)) ∧
      ts.mapM element.shape.project? = some ds ∧ ds.mapM element.ofDecoded = .ok vs := by
  induction vs with
  | nil => exact ⟨[], [], rfl, (fun _ h => nomatch h), rfl, (fun _ _ _ _ h => nomatch h), rfl, rfl⟩
  | cons v vs ih =>
    rw [List.forall_mem_cons] at h
    obtain ⟨⟨t, d, hc⟩, hvs⟩ := h
    obtain ⟨ts, ds, hts, hsound, hlen, hwithin, hds, hvs⟩ := ih hvs
    refine ⟨t :: ts, d :: ds, ?_, List.forall_mem_cons.2 ⟨hc.sound, hsound⟩,
      congrArg Nat.succ hlen, fun L k h => ?_, ?_, ?_⟩
    · rw [Value.toTerms, hc.toTerm, hts]
      rfl
    · exact List.forall_mem_cons.2 ⟨hc.within L k h.1, hwithin L k h.2⟩
    · rw [List.mapM_cons, hc.project, hds]
      rfl
    · rw [List.mapM_cons, hc.ofDecoded, hvs]
      rfl

theorem carried_fields {targets : List (Field Target)} {fields : List (Field Value)}
    (h : ∀ f ∈ targets, ∀ v, f.value.Has v → v.Portable → ∃ t d, Carried f.value v t d)
    (ht : Target.HasFields targets fields) (hp : Value.FieldsPortable fields) :
    ∃ ts ds, Value.fieldTerms fields = .ok ts ∧ (∀ t ∈ ts, t.Sound) ∧
      ts.length = fields.length ∧
      (∀ L k, Value.FieldsWithin L k fields → ∀ t ∈ ts, t.Within (L.inside k)) ∧
      Shape.projectFields? (Target.fieldShapes targets) ts = some ds ∧
      ds.length = targets.length ∧ Target.ofFields targets ds = .ok fields := by
  induction targets generalizing fields with
  | nil =>
    cases fields with
    | nil =>
      exact ⟨[], [], rfl, (fun _ h => nomatch h), rfl, (fun _ _ _ _ h => nomatch h), rfl, rfl, rfl⟩
    | cons f fields => exact ht.elim
  | cons target targets ih =>
    cases fields with
    | nil => exact ht.elim
    | cons field fields =>
      obtain ⟨name, target⟩ := target
      obtain ⟨_, v⟩ := field
      obtain ⟨rfl, hv, hfields⟩ := ht
      rw [List.forall_mem_cons] at h
      obtain ⟨t, d, hc⟩ := h.1 v hv hp.1
      obtain ⟨ts, ds, hts, hsound, hn, hwithin, hds, hlen, hof⟩ := ih h.2 hfields hp.2
      refine ⟨t :: ts, ⟨name, d⟩ :: ds, ?_, List.forall_mem_cons.2 ⟨hc.sound, hsound⟩,
        congrArg Nat.succ hn, fun L k h => ?_, ?_, congrArg Nat.succ hlen, ?_⟩
      · rw [Value.fieldTerms, hc.toTerm, hts]
        rfl
      · exact List.forall_mem_cons.2 ⟨hc.within L k h.1, hwithin L k h.2⟩
      · rw [Target.fieldShapes, Shape.projectFields?, hc.project, hds]
        rfl
      · rw [Target.ofFields]
        simp only [Decoded.nextField, hc.ofDecoded, hof]
        rfl

theorem exists_carried (T : Target) (v : Value) (ht : T.Has v) (hp : v.Portable) :
    ∃ t d, Carried T v t d := by
  induction T using Target.induct generalizing v with
  | machine w =>
    cases v with
    | machine n => exact ⟨_, _, carried_machine ht hp⟩
    | _ => exact ht.elim
  | integer =>
    cases v with
    | integer n => exact ⟨_, _, carried_integer hp⟩
    | _ => exact ht.elim
  | string =>
    cases v with
    | string s => exact ⟨_, _, carried_string s⟩
    | _ => exact ht.elim
  | tagged =>
    cases v with
    | tagged t => exact ⟨_, _, carried_tagged hp⟩
    | _ => exact ht.elim
  | term =>
    cases v with
    | term t => exact ⟨_, _, carried_term hp.1 hp.2⟩
    | _ => exact ht.elim
  | unit =>
    cases v with
    | unit => exact ⟨_, _, carried_unit⟩
    | _ => exact ht.elim
  | list element ih =>
    cases v with
    | list vs =>
      have hvs := Value.allPortable_iff.1 hp
      obtain ⟨ts, ds, hts, hsound, hn, hwithin, hds, hof⟩ :=
        carried_list fun v hv => ih v (ht v hv) (hvs v hv)
      refine ⟨.list ts, .list ds, ?_, sound_list hsound, fun L k h => ?_, ?_, ?_⟩
      · rw [Value.toTerm, hts]
        rfl
      · rw [Value.Within] at h
        rw [Term.within_list_iff, hn]
        exact ⟨h.1, h.2.1, hwithin L (k + 1) h.2.2⟩
      · rw [Target.shape, Shape.project?, hds]
        rfl
      · rw [Target.ofDecoded]
        simp only [hof]
        rfl
    | _ => exact ht.elim
  | record targets ih =>
    cases v with
    | record fields =>
      obtain ⟨ts, ds, hts, hsound, hn, hwithin, hds, hlen, hof⟩ := carried_fields ih ht hp
      refine ⟨.tuple ts, .record ds, ?_, sound_tuple hsound, fun L k h => ?_, ?_, ?_⟩
      · rw [Value.toTerm, hts]
        rfl
      · rw [Value.Within] at h
        rw [Term.within_tuple_iff, hn]
        exact ⟨h.1, h.2.1, hwithin L (k + 1) h.2.2⟩
      · rw [Target.shape, Shape.project?, hds]
        rfl
      · have hd : (Decoded.record ds).recordFields targets.length = .ok ds := if_pos hlen
        rw [Target.ofDecoded, hd]
        change (Target.ofFields targets ds >>= fun values => pure (Value.record values)) = _
        rw [hof]
        rfl
    | _ => exact ht.elim

/-! ## Messages of values -/

section
variable {t : Term} {v : Value} {d : Decoded} {T : Target}

theorem toBytes_eq (hv : v.toTerm = .ok t) (ht : t.Encodable) :
    toBytes v = .ok (versionMagic :: t.encoded) := by
  rw [toBytes_of_toTerm hv, ht, orFault_none]

theorem ofBytes_eq (hT : T.Wide) (h : Carried T v t d) (ht : t.Encodable) (hw : t.Within {}) :
    ofBytes (versionMagic :: t.encoded) T {} = .ok v := by
  have hcheck := Target.check_shape T hT
  have hp : Projects {} T.shape := gives_shaped T.shape hcheck
  have hdecode : decode (.ofBytes (versionMagic :: (t.encoded ++ []))) T.shape {} =
      (.ok d, { pending := [], delivered := t.encoded.length + 1 }) :=
    (decode_of_gives hcheck (hp t 0 ht hw) []).2 ⟨h.project, rfl⟩
  rw [List.append_nil] at hdecode
  rw [ofBytes, decodeAs, hdecode]
  exact h.ofDecoded

end

/-- Encoding a portable value of a type without 8-bit integers, and decoding the message into the
type, gives the value back, when the value is within the limits that decoding has by default. -/
theorem transcode_eq {T : Target} {v : Value} (hT : T.Wide) (hv : T.Has v) (hp : v.Portable)
    (hw : v.Within {} 0) : transcode v T = .ok v := by
  obtain ⟨t, d, hc⟩ := exists_carried T v hv hp
  have hwt : t.Within {} := hc.within {} 0 hw
  have ht : t.Encodable := Term.encodable_iff.2 fun u hu =>
    hc.sound u hu (Nat.le_trans (hwt.payload u hu) (by decide))
      (Nat.le_trans (hwt.count u hu) (by decide))
  rw [transcode, toBytes_eq hc.toTerm ht]
  change (ofBytes (versionMagic :: t.encoded) T {}).mapError CodecError.decoding = _
  rw [ofBytes_eq hT hc ht hwt]
  rfl

theorem transcode_eq_record :
    (Target.record [⟨some "id", .machine .w64⟩, ⟨some "tags", .list .tagged⟩]).Wide ∧
    transcode
        (.record [⟨some "id", .machine ⟨.signed .w64, 5, by decide⟩⟩,
          ⟨some "tags", .list [.tagged ⟨"a", .atom⟩]⟩])
        (.record [⟨some "id", .machine .w64⟩, ⟨some "tags", .list .tagged⟩]) =
      .ok (.record [⟨some "id", .machine ⟨.signed .w64, 5, by decide⟩⟩,
        ⟨some "tags", .list [.tagged ⟨"a", .atom⟩]⟩]) := by
  have hT : (Target.record [⟨some "id", .machine .w64⟩, ⟨some "tags", .list .tagged⟩]).Wide :=
    ⟨nofun, trivial, trivial⟩
  have hid : Width.w32.Fits 5 := by decide
  have hname : Utf8.size "a" ≤ mediumLengthMax := by decide
  have hrun : Utf8.size "a" ≤ ({} : Limits).maxPayload := by decide
  refine ⟨hT, transcode_eq hT ⟨rfl, rfl, rfl, ?_, trivial⟩
    ⟨hid, ⟨fun _ => hname, trivial⟩, trivial⟩
    ⟨by decide, by decide, trivial, ⟨by decide, by decide, hrun, trivial⟩, trivial⟩⟩
  intro v hv
  obtain rfl := List.mem_singleton.1 hv
  trivial

end ExternalTerm
