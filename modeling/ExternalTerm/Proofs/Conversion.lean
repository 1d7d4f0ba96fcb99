import ExternalTerm.Proofs.Conformity
import ExternalTerm.Proofs.Refusal
import ExternalTerm.Proofs.Typed

/-!
# Decoding into types

A type gives both the shape to decode against and the conversion of what is decoded. They agree:

* `Target.exists_ofDecoded` : what conforms to the shape of a type without 8-bit integers is
  converted into a value of the type;
* `Target.check_shape_eq_error` : the shape of a type with 8-bit integers is refused;
* `decodeAs_of_decode` : so decoding into a type fails only where decoding against its shape does.
-/

namespace ExternalTerm

open Reader

/-! ## Conversion -/

/-- Where every element is converted into something, so are all together. -/
theorem exists_mapM {α β ε : Type} {f : α → Except ε β} {P : β → Prop} {as : List α}
    (h : ∀ a ∈ as, ∃ b, f a = .ok b ∧ P b) : ∃ bs, as.mapM f = .ok bs ∧ ∀ b ∈ bs, P b := by
  induction as with
  | nil => exact ⟨[], rfl, fun _ h => nomatch h⟩
  | cons a as ih =>
    obtain ⟨⟨b, hb, hP⟩, has⟩ := List.forall_mem_cons.1 h
    obtain ⟨bs, hbs, hPs⟩ := ih has
    refine ⟨b :: bs, ?_, List.forall_mem_cons.2 ⟨hP, hPs⟩⟩
    rw [List.mapM_cons, hb, hbs]
    rfl

namespace Target

theorem shape_ne_of_wide {T : Target} (h : T.Wide) : T.shape ≠ .integer .w8 := by
  intro hshape
  cases T <;> cases hshape
  exact h rfl

theorem exists_ofFields {targets : List (Field Target)} {values : List (Field Decoded)}
    (h : ∀ f ∈ targets, f.value.Wide → ∀ d, f.value.shape.Conforms d →
      ∃ v, f.value.ofDecoded d = .ok v ∧ f.value.Has v)
    (hw : WideFields targets) (hd : Shape.ConformsFields (fieldShapes targets) values) :
    values.length = targets.length ∧
      ∃ fields, ofFields targets values = .ok fields ∧ HasFields targets fields := by
  induction targets generalizing values with
  | nil =>
    cases values with
    | nil => exact ⟨rfl, [], rfl, trivial⟩
    | cons value values => exact hd.elim
  | cons target targets ih =>
    cases values with
    | nil => exact hd.elim
    | cons value values =>
      obtain ⟨hf, hfs⟩ := List.forall_mem_cons.1 h
      obtain ⟨-, hvalue, hvalues⟩ := hd
      obtain ⟨v, hv, hhas⟩ := hf hw.1 value.value hvalue
      obtain ⟨hlen, fields, hfields, hall⟩ := ih hfs hw.2 hvalues
      refine ⟨congrArg Nat.succ hlen, ⟨target.name, v⟩ :: fields, ?_, rfl, hhas, hall⟩
      rw [ofFields]
      simp only [Decoded.nextField, hv, hfields]
      rfl

/-- What conforms to the shape of a type without 8-bit integers is converted into a value of the
type. -/
theorem exists_ofDecoded (T : Target) (hT : T.Wide) (d : Decoded) (hd : T.shape.Conforms d) :
    ∃ v, T.ofDecoded d = .ok v ∧ T.Has v := by
  induction T using Target.induct generalizing d with
  | machine w =>
    cases d with
    | integer n =>
      obtain ⟨-, hn⟩ := hd
      refine ⟨.machine ⟨.signed w, n.toInt, hn⟩, ?_, rfl⟩
      rw [ofDecoded]
      simp only [hn, dite_true]
    | _ => exact hd.elim
  | integer =>
    cases d with
    | bigInteger n => exact ⟨.integer n, rfl, trivial⟩
    | _ => exact hd.elim
  | string =>
    cases d with
    | text s => exact ⟨.string s, rfl, trivial⟩
    | _ => exact hd.elim
  | tagged =>
    cases d with
    | tagged t => exact ⟨.tagged t, rfl, trivial⟩
    | _ => exact hd.elim
  | term =>
    cases d with
    | term t => exact ⟨.term t, rfl, trivial⟩
    | _ => exact hd.elim
  | unit =>
    cases d with
    | record values =>
      cases values with
      | nil => exact ⟨.unit, rfl, trivial⟩
      | cons f values => exact hd.elim
    | _ => exact hd.elim
  | list element ih =>
    cases d with
    | list ds =>
      rcases hd with hds | ⟨hshape, -⟩
      · obtain ⟨vs, hvs, hhas⟩ := exists_mapM fun d hd => ih hT d (hds d hd)
        refine ⟨.list vs, ?_, hhas⟩
        rw [ofDecoded]
        simp only [hvs]
        rfl
      · exact absurd hshape (shape_ne_of_wide hT)
    | _ => exact hd.elim
  | record targets ih =>
    cases d with
    | record values =>
      obtain ⟨hlen, fields, hfields, hhas⟩ := exists_ofFields ih hT hd
      have hrecord : (Decoded.record values).recordFields targets.length = .ok values :=
        if_pos hlen
      refine ⟨.record fields, ?_, hhas⟩
      rw [ofDecoded, hrecord]
      change (ofFields targets values >>= fun fields => pure (Value.record fields)) = _
      rw [hfields]
      rfl
    | _ => exact hd.elim

/-! ## Types with 8-bit integers -/

theorem check_fieldShapes_eq_error {targets : List (Field Target)}
    (h : ∀ f ∈ targets, ¬ f.value.Wide → f.value.shape.check = .error (.range .w8))
    (hT : ¬ WideFields targets) :
    Shape.checkFields (fieldShapes targets) = .error (.range .w8) := by
  induction targets with
  | nil => exact absurd trivial hT
  | cons f targets ih =>
    obtain ⟨hf, hfs⟩ := List.forall_mem_cons.1 h
    rw [fieldShapes, Shape.checkFields]
    by_cases hw : f.value.Wide
    · rw [check_shape f.value hw]
      exact ih hfs fun hws => hT ⟨hw, hws⟩
    · rw [hf hw]
      rfl

theorem check_shape_eq_error (T : Target) (hT : ¬ T.Wide) :
    T.shape.check = .error (.range .w8) := by
  induction T using Target.induct with
  | machine w =>
    obtain rfl : w = .w8 := Decidable.not_not.1 hT
    rfl
  | list element ih => exact ih hT
  | record targets ih => exact check_fieldShapes_eq_error ih hT
  | _ => exact absurd trivial hT

end Target

/-! ## Messages -/

section
variable {T : Target} {source source' : Source} {L : Limits}

theorem decodeAs_of_ok {d : Decoded} (h : decode source T.shape L = (.ok d, source')) :
    decodeAs source T L = (T.ofDecoded d, source') := by
  rw [decodeAs, h]
  rfl

theorem decodeAs_of_error {e : DecodeError} (h : decode source T.shape L = (.error e, source')) :
    decodeAs source T L = (.error e, source') := by
  rw [decodeAs, h]
  rfl

theorem exists_value_of_decode {d : Decoded} (hT : T.Wide)
    (h : decode source T.shape L = (.ok d, source')) : ∃ v, T.ofDecoded d = .ok v ∧ T.Has v := by
  obtain ⟨data, hread, -⟩ := exists_reads_of_decode h
  exact T.exists_ofDecoded hT d (conforms_of_reads T.shape d hread)

/-- Decoding into a type without 8-bit integers fails where decoding against its shape fails, with
the same error, and nowhere else; the conversion never finds a value of another kind than its own.
Decoding into any other type fails before anything is read. -/
theorem decodeAs_of_decode (T : Target) (source : Source) (L : Limits) :
    (T.Wide →
      (∀ d source', decode source T.shape L = (.ok d, source') →
        ∃ v, T.ofDecoded d = .ok v ∧ T.Has v ∧ decodeAs source T L = (.ok v, source')) ∧
      (∀ e source', decodeAs source T L = (.error e, source') ↔
        decode source T.shape L = (.error e, source')) ∧
      ∀ expected found, (decodeAs source T L).1 ≠ .error (.shapeMismatch expected found)) ∧
    (¬ T.Wide → decodeAs source T L = (.error (.range .w8), source)) := by
  refine ⟨fun hT => ?_, fun hT => ?_⟩
  · have herror : ∀ e source', decodeAs source T L = (.error e, source') ↔
        decode source T.shape L = (.error e, source') := by
      intro e source'
      refine ⟨fun h => ?_, decodeAs_of_error⟩
      cases hd : decode source T.shape L with
      | mk result last =>
        cases result with
        | ok d =>
          obtain ⟨v, hv, -⟩ := exists_value_of_decode hT hd
          rw [decodeAs_of_ok hd, hv] at h
          cases h
        | error e' =>
          rw [decodeAs_of_error hd] at h
          cases h
          rfl
    refine ⟨?_, herror, ?_⟩
    · intro d source' h
      obtain ⟨v, hv, hhas⟩ := exists_value_of_decode hT h
      refine ⟨v, hv, hhas, ?_⟩
      rw [decodeAs_of_ok h, hv]
    · intro expected found h
      have hd := (herror _ (decodeAs source T L).2).1 (Prod.ext h rfl)
      exact not_aboutTarget_of_check (T.check_shape hT) (congrArg Prod.fst hd) trivial
  · exact decodeAs_of_error (decode_of_refused (T.check_shape_eq_error hT) source L)

/-- A list that comes as a string is converted, a message that is cut is not, and no byte is read
for a type with an 8-bit integer inside. -/
theorem decodeAs_of_decode_list :
    let T : Target := .record [⟨some "name", .string⟩, ⟨some "codes", .list (.machine .w16)⟩]
    let bytes : List UInt8 := [131, 104, 2, 107, 0, 1, 97, 107, 0, 2, 1, 255]
    (∃ v, T.ofDecoded (.record [⟨some "name", .text "a"⟩,
          ⟨some "codes", .list [.integer 1, .integer 255]⟩]) = .ok v ∧ T.Has v ∧
        decodeAs (.ofBytes bytes) T {} = (.ok v, { pending := [], delivered := 12 })) ∧
      decodeAs (.ofBytes (bytes.take 11)) T {} =
        (.error (.truncated 2 1), { pending := [], delivered := 11 }) ∧
      decodeAs (.ofBytes bytes) (.record [⟨none, T⟩, ⟨none, .list (.machine .w8)⟩]) {} =
        (.error (.range .w8), .ofBytes bytes) := by
  intro T bytes
  have hT : T.Wide := ⟨trivial, nofun, trivial⟩
  have hnot : ¬ (Target.record [⟨none, T⟩, ⟨none, .list (.machine .w8)⟩]).Wide := fun h => h.2.1 rfl
  have hok : decode (.ofBytes [131, 104, 2, 107, 0, 1, 97, 107, 0, 2, 1, 255])
      (.record [⟨some "name", .text⟩, ⟨some "codes", .list (.integer .w16)⟩]) {} =
        (.ok (.record [⟨some "name", .text "a"⟩,
          ⟨some "codes", .list [.integer 1, .integer 255]⟩]),
          { pending := [], delivered := 12 }) := by decide +kernel
  have herror : decode (.ofBytes [131, 104, 2, 107, 0, 1, 97, 107, 0, 2, 1])
      (.record [⟨some "name", .text⟩, ⟨some "codes", .list (.integer .w16)⟩]) {} =
        (.error (.truncated 2 1), { pending := [], delivered := 11 }) := by decide +kernel
  exact ⟨((decodeAs_of_decode T _ _).1 hT).1 _ _ hok,
    (((decodeAs_of_decode T _ _).1 hT).2.1 _ _).2 herror, (decodeAs_of_decode _ _ _).2 hnot⟩

end

end ExternalTerm
