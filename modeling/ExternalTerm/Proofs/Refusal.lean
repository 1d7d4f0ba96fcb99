import ExternalTerm.Proofs.Leveled

/-!
# Shapes that are refused

No decoder supports integers of 8 bits or unsigned ones, so a shape that asks for one is refused
before a message is begun.

* `Shape.targets` : what a shape asks for, record by record and list by list;
* `Shape.check_eq_error_iff` : the first of these targets that is not supported decides;
* `leveled_impartial` : no message, and no source, gives cause for an error about a target;
* `decode_refused_iff` : so decoding ends in such an error for the shapes that are refused alone.
-/

namespace ExternalTerm

/-! ## Errors about targets -/

namespace DecodeError

def IsRefusal : DecodeError → Prop
  | .range _ | .unhandledTarget _ => True
  | _ => False

/-- The error is about what was asked for, whatever the message holds. -/
def AboutTarget : DecodeError → Prop
  | .shapeMismatch .. => True
  | e => e.IsRefusal

theorem IsRefusal.aboutTarget {e : DecodeError} (h : e.IsRefusal) : e.AboutTarget := by
  cases e <;> first | exact h | trivial

theorem IsRefusal.not_isLack {e : DecodeError} (h : e.IsRefusal) : ¬ e.IsLack := by
  cases e <;> first | exact not_false | cases h

theorem IsLack.not_aboutTarget {e : DecodeError} (h : e.IsLack) : ¬ e.AboutTarget := by
  cases e <;> first | exact not_false | cases h

theorem IsDefect.not_aboutTarget {e : DecodeError} (h : e.IsDefect) : ¬ e.AboutTarget := by
  cases e <;> first | exact not_false | cases h

end DecodeError

/-! ## What a shape asks for -/

namespace Shape

mutual

/-- What the shape asks for: itself, or what the fields of a record ask for, one after the other, or
the elements of a list. -/
def targets : Shape → List Shape
  | record fields => fieldTargets fields
  | list element => element.targets
  | s => [s]

def fieldTargets : List (Field Shape) → List Shape
  | [] => []
  | ⟨_, s⟩ :: fields => s.targets ++ fieldTargets fields

end

def Unsupported : Shape → Prop
  | integer .w8 | unsigned _ => True
  | _ => False

def refusal? : Shape → Option DecodeError
  | integer .w8 => some (.range .w8)
  | unsigned _ => some (.unhandledTarget .unsignedInteger)
  | _ => none

section
variable {e : DecodeError}

theorem isRefusal_of_refusal? {s : Shape} (h : s.refusal? = some e) : e.IsRefusal := by
  unfold refusal? at h
  split at h <;> cases h <;> trivial

theorem isSome_refusal?_iff (s : Shape) : s.refusal?.isSome ↔ s.Unsupported := by
  unfold refusal? Unsupported
  split <;> simp

/-- There is a first target that is not supported just if there is any. -/
theorem isSome_findSome?_refusal?_iff (ts : List Shape) :
    (ts.findSome? refusal?).isSome ↔ ∃ t ∈ ts, t.Unsupported := by
  simp only [List.findSome?_isSome_iff, isSome_refusal?_iff]

theorem checkFields_eq_error_iff {fields : List (Field Shape)}
    (h : ∀ f ∈ fields, ∀ e,
      f.value.check = .error e ↔ f.value.targets.findSome? refusal? = some e) :
    checkFields fields = .error e ↔ (fieldTargets fields).findSome? refusal? = some e := by
  induction fields with
  | nil => simp [checkFields, fieldTargets, pure, Except.pure]
  | cons f fields ih =>
    obtain ⟨hf, hfs⟩ := List.forall_mem_cons.1 h
    rw [checkFields, fieldTargets, List.findSome?_append]
    cases hc : f.value.check with
    | error e' =>
      rw [(hf e').1 hc]
      simp [bind, Except.bind]
    | ok u =>
      have hnone : f.value.targets.findSome? refusal? = none := by
        refine Option.eq_none_iff_forall_ne_some.2 fun e' he' => ?_
        cases hc.symm.trans ((hf e').2 he')
      rw [hnone, Option.none_or]
      exact ih hfs

/-- A shape is refused for the first of its targets that is not supported. -/
theorem check_eq_error_iff (s : Shape) :
    s.check = .error e ↔ s.targets.findSome? refusal? = some e := by
  induction s using Shape.induct generalizing e with
  | integer w => cases w <;> simp [check, targets, refusal?, pure, Except.pure, throw, throwThe,
      MonadExceptOf.throw]
  | unsigned w => simp [check, targets, refusal?, throw, throwThe, MonadExceptOf.throw]
  | record fields ih =>
    rw [check, targets]
    exact checkFields_eq_error_iff fun f hf e => ih f hf
  | list element ih =>
    rw [check, targets]
    exact ih
  | _ => simp [check, targets, refusal?, pure, Except.pure]

/-- No shape is refused for another reason than a target. -/
theorem isRefusal_of_check (s : Shape) (h : s.check = .error e) : e.IsRefusal := by
  obtain ⟨t, -, ht⟩ := List.exists_of_findSome?_eq_some (s.check_eq_error_iff.1 h)
  exact isRefusal_of_refusal? ht

end

end Shape

/-! ## Reading -/

namespace Reader

/-- Where the limits leave `levels` levels, the action ends in no error about a target. -/
structure Impartial (levels : Nat) {α : Type} (m : ReadM α) : Prop where
  composed : Composed m
  not_aboutTarget : ∀ r e r', r.limits.maxDepth - r.depth = levels → m r = .error e r' →
    ¬ e.AboutTarget

section
variable {α β : Type} {m : ReadM α} {f : α → ReadM β} {levels : Nat}

theorem Impartial.bind (hm : Impartial levels m) (hf : ∀ a, Impartial levels (f a)) :
    Impartial levels (m >>= f) := by
  refine ⟨hm.composed.bind fun a => (hf a).composed, fun r e r' hr h => ?_⟩
  cases hrun : m r with
  | ok a r₁ =>
    rw [bind_ok hrun] at h
    have hs := hm.composed.steady r
    rw [after_ok hrun] at hs
    rw [← hs.1, ← hs.2] at hr
    exact (hf a).not_aboutTarget r₁ e r' hr h
  | error e₁ r₁ =>
    rw [bind_error hrun] at h
    cases h
    exact hm.not_aboutTarget r e r' hr hrun

theorem Impartial.rename {g : DecodeError → DecodeError}
    (hg : ∀ e, g e = e ∨ e.IsLack ∧ (g e).IsLack) (hm : Impartial levels m) :
    Impartial levels (EStateM.adaptExcept g m) := by
  refine ⟨.rename hg hm.composed, fun r e r' hr h => ?_⟩
  rw [adaptExcept_eq] at h
  cases hrun : m r with
  | ok a r₁ =>
    rw [hrun] at h
    cases h
  | error e₁ r₁ =>
    rw [hrun] at h
    cases h
    rcases hg e₁ with heq | ⟨-, hlack⟩
    · rw [heq]
      exact hm.not_aboutTarget r e₁ r' hr hrun
    · exact hlack.not_aboutTarget

theorem impartial_exactly (n : Nat) : Impartial levels (exactly n) := by
  refine ⟨.exactly n, fun r e r' _ h => ?_⟩
  unfold exactly at h
  dsimp only at h
  split_ifs at h <;> cases h <;> exact not_false

theorem impartial_run (n : Nat) : Impartial levels (run n) := by
  refine ⟨.run n, fun r e r' _ h => ?_⟩
  unfold run at h
  dsimp only at h
  split_ifs at h <;> cases h <;> exact not_false

theorem impartial_checkElements (what : Kind) (n : Nat) :
    Impartial levels (checkElements what n) := by
  refine ⟨composed.checkElements what n, fun r e r' _ h => ?_⟩
  change (if r.limits.maxElements < n then throw (.limitExceeded what n r.limits.maxElements)
    else pure () : ReadM Unit) r = .error e r' at h
  split_ifs at h <;> cases h
  exact not_false

theorem compositional_impartial (levels : Nat) : Compositional (Impartial levels) where
  pure a := ⟨.pure a, fun _ _ _ _ h => nomatch h⟩
  throw he := by
    refine ⟨.throw he.not_isLack, fun r e r' _ h => ?_⟩
    cases h
    exact he.not_aboutTarget
  bind := Impartial.bind
  rename := Impartial.rename
  exactly := impartial_exactly
  checkElements := impartial_checkElements
  run := impartial_run

/-- A limit that leaves no level is reported as such. -/
theorem impartial_nested_zero (hm : Composed m) : Impartial 0 (Reader.nested m) := by
  refine ⟨.nested hm, fun r e r' hr h => ?_⟩
  rw [Reader.nested, if_pos (Nat.le_of_sub_eq_zero hr)] at h
  cases h
  exact not_false

theorem Impartial.nested (hm : Impartial levels m) :
    Impartial (levels + 1) (Reader.nested m) := by
  refine ⟨.nested hm.composed, fun r e r' hr h => ?_⟩
  have hlt : r.depth < r.limits.maxDepth := by omega
  rw [Reader.nested, if_neg (Nat.not_le.2 hlt)] at h
  cases hrun : m { r with depth := r.depth + 1 } with
  | ok a r₁ =>
    rw [hrun] at h
    cases h
  | error e₁ r₁ =>
    rw [hrun] at h
    cases h
    refine hm.not_aboutTarget _ e r₁ ?_ hrun
    show r.limits.maxDepth - (r.depth + 1) = levels
    omega

theorem leveled_impartial : Leveled Impartial where
  compositional := compositional_impartial
  nested_zero := impartial_nested_zero
  nested_succ _ h := h.nested

end

end Reader

/-! ## Messages -/

open Reader

section
variable {e : DecodeError}

/-- A shape that is not refused never leads to an error about a target, whatever the source does. -/
theorem not_aboutTarget_of_check {s : Shape} {L : Limits} {source : Source}
    (hs : s.check = .ok ()) (h : (decode source s L).1 = .error e) : ¬ e.AboutTarget := by
  rw [decode_of_check hs] at h
  cases hr : readMessage s { source, limits := L } with
  | ok v r =>
    rw [hr] at h
    cases h
  | error e' r =>
    rw [hr] at h
    cases h
    exact (leveled_impartial.message hs _).not_aboutTarget _ e r rfl hr

/-- Decoding ends in a refusal of a target just if the shape asks for one that is not supported,
whatever the source and the limits are. The error is that of the first such target, and the source
is left as it was. -/
theorem decode_refused_iff (s : Shape) (L : Limits) (source : Source) :
    ((∃ e, (decode source s L).1 = .error e ∧ e.IsRefusal) ↔ ∃ t ∈ s.targets, t.Unsupported) ∧
    ∀ e, (decode source s L).1 = .error e → e.IsRefusal →
      s.targets.findSome? Shape.refusal? = some e ∧ (decode source s L).2 = source := by
  rw [← Shape.isSome_findSome?_refusal?_iff, Option.isSome_iff_exists]
  simp only [← Shape.check_eq_error_iff]
  cases hs : s.check with
  | error e' =>
    have hrefusal : e'.IsRefusal := s.isRefusal_of_check hs
    rw [decode_of_refused hs]
    refine ⟨⟨fun _ => ⟨e', rfl⟩, fun _ => ⟨e', rfl, hrefusal⟩⟩, fun e he _ => ?_⟩
    cases he
    exact ⟨rfl, rfl⟩
  | ok u =>
    have hnot : ∀ e, (decode source s L).1 = .error e → ¬ e.IsRefusal := by
      intro e he hrefusal
      exact not_aboutTarget_of_check hs he hrefusal.aboutTarget
    refine ⟨⟨?_, ?_⟩, fun e he hrefusal => absurd hrefusal (hnot e he)⟩
    · rintro ⟨e, he, hrefusal⟩
      exact absurd hrefusal (hnot e he)
    · rintro ⟨e, he⟩
      cases he

/-- The first target counts, wherever it stands, and a source that fails at once is not asked. -/
theorem decode_refused_iff_nested :
    let s : Shape := .record [⟨none, .list (.integer .w16)⟩,
      ⟨some "counts", .list (.record [⟨none, .text⟩, ⟨none, .unsigned .w32⟩])⟩,
      ⟨none, .integer .w8⟩]
    let source : Source := { pending := [131, 104, 0], failAt := some 0 }
    (∃ t ∈ s.targets, t.Unsupported) ∧
      s.targets.findSome? Shape.refusal? = some (.unhandledTarget .unsignedInteger) ∧
        (decode source s {}).2 = source := by
  intro s source
  have he : (decode source s {}).1 = .error (.unhandledTarget .unsignedInteger) := by rfl
  have hrefused := decode_refused_iff s {} source
  exact ⟨hrefused.1.1 ⟨_, he, trivial⟩, hrefused.2 _ he trivial⟩

end

end ExternalTerm
