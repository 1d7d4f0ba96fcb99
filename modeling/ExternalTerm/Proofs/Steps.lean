import ExternalTerm.Proofs.Leveled
import ExternalTerm.Session

/-!
# The steps of a session

A step is either a block, which takes the steps inside it, or one use of a reader.

* `Step.block?`, `Step.takeEach` : the steps inside a block, and what it is to take them;
* `Leveled.take` : what holds of every reader holds of the steps that are no blocks;
* `after_takeEach_cons` : where a sequence of steps ends.
-/

namespace ExternalTerm

open Reader

namespace Step

/-- The steps of a block, and whether it is a strict one. -/
def block? : Step → Option (Bool × List Step)
  | .block steps => some (false, steps)
  | .strictBlock steps => some (true, steps)
  | _ => none

/-- Take steps one after the other; those of a strict sequence until one fails. -/
def takeEach : Bool → List Step → ReadM (List (Report Answer))
  | false, steps => infallible (takeAll steps)
  | true, steps => takeStrictly steps

end Step

/-! ## Steps that are no blocks -/

/-- An action is built from parts however many levels are left. -/
theorem Reader.leveled_composed : Leveled fun _ => Composed where
  compositional _ := composed
  nested_zero h := h.nested
  nested_succ _ h := h.nested

/-- A property of all readers is one of the steps that are no blocks. -/
theorem Reader.Leveled.take {P : Nat → ∀ {α : Type}, ReadM α → Prop} (hP : Leveled P)
    (hnever : ∀ k, P k (Reader.shaped (.integer .w8)) ∧ ∀ w, P k (Reader.shaped (.unsigned w)))
    {x : Step} (hx : x.block? = none) (k : Nat) : P k x.take := by
  have hk := hP.compositional k
  cases x with
  | unsigned size => exact hk.map (hk.unsigned size) _
  | int32 => exact hk.map hk.int32 _
  | run length => exact hk.map (hk.run length) _
  | checkElements count => exact hk.map (hk.checkElements .list count) _
  | version => exact hk.map hk.version _
  | nil => exact hk.map hk.nil _
  | listCount => exact hk.map hk.listCount _
  | tupleArity tag => exact hk.map (hk.tupleArity tag) _
  | integer width => exact hk.map (hk.integer width) _
  | bigInteger => exact hk.map hk.bigInteger _
  | bigIntegerBody => exact hk.map hk.bigIntegerBody _
  | text => exact hk.map (hk.bind hk.byte hk.textTagged) _
  | textTagged tag => exact hk.map (hk.textTagged tag) _
  | taggedTextTagged tag => exact hk.map (hk.taggedTextTagged tag) _
  | term => exact hk.map (hP.term k) _
  | shaped shape => exact hk.map (hP.shaped_of (.inr hnever) k) _
  | block steps => cases hx
  | strictBlock steps => cases hx

section
variable {x : Step} {inner : List Step} {strict : Bool}

theorem composed_take (hx : x.block? = none) : Composed x.take :=
  leveled_composed.take (fun _ => ⟨composed_shaped _, fun _ => composed_shaped _⟩) hx 0

/-! ## Sequences of steps -/

theorem take_of_block? (h : x.block? = some (strict, inner)) :
    x.take = nested (Step.takeEach strict inner) >>= fun reports => pure (.block reports) := by
  cases x with
  | block steps =>
    cases h
    rw [Step.take]
    rfl
  | strictBlock steps =>
    cases h
    rw [Step.take]
    rfl
  | _ => cases h

theorem takeAll_cons (step : Step) (steps : List Step) (r : Reader) :
    (Step.takeAll (step :: steps) r).2 = (Step.takeAll steps (after step.take r)).2 := by
  have h : (attempt step.take r).2 = after step.take r := by
    unfold attempt after
    cases step.take r <;> rfl
  rw [Step.takeAll]
  change (Step.takeAll steps (attempt step.take r).2).2 = _
  rw [h]

theorem after_takeStrictly_cons (step : Step) (steps : List Step) (r : Reader) :
    after (Step.takeStrictly (step :: steps)) r =
      match step.take r with
      | .ok _ r' => after (Step.takeStrictly steps) r'
      | .error _ r' => r' := by
  rw [Step.takeStrictly]
  cases hr : step.take r with
  | ok a r' =>
    have hi : insist step.take r = .ok ⟨.ok a, r'.consumed⟩ r' := bind_ok hr
    dsimp only
    rw [after, after, bind_ok hi]
    cases hs : Step.takeStrictly steps r' with
    | ok reports r'' => rw [bind_ok hs]; rfl
    | error e r'' => rw [bind_error hs]
  | error e r' =>
    have hi : insist step.take r = .error e r' := bind_error hr
    rw [after_error (bind_error hi)]

/-- A sequence of steps ends where the steps after the first do, or where the first does. -/
theorem after_takeEach_cons (strict : Bool) (step : Step) (steps : List Step) (r : Reader) :
    after (Step.takeEach strict (step :: steps)) r =
        after (Step.takeEach strict steps) (after step.take r) ∨
      after (Step.takeEach strict (step :: steps)) r = after step.take r := by
  cases strict with
  | false => exact .inl (takeAll_cons step steps r)
  | true =>
    have h := after_takeStrictly_cons step steps r
    cases hr : step.take r with
    | ok a r' =>
      rw [hr] at h
      rw [after_ok hr]
      exact .inl h
    | error e r' =>
      rw [hr] at h
      rw [after_error hr]
      exact .inr h

end

end ExternalTerm
