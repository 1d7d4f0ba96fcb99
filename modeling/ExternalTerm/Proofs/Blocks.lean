import ExternalTerm.Proofs.Alongside
import ExternalTerm.Proofs.Steps

/-!
# Blocks and the depth of a reader

Whatever the steps of a session do, and however they fail, the depth of the reader is the number of
blocks that are open.

* `Begins` : when a step of a session is begun, by which reader, inside how many open blocks;
* `steady_take` : no step changes the depth in the end;
* `depth_counts_blocks` : so a block runs its steps just if fewer blocks are open than the limit
  allows, and inside `j` blocks all else is read as by a new reader with `j` levels less.
-/

namespace ExternalTerm

open Reader

namespace Step

/-- How a block ends that was begun inside `j` others, when its steps ended like this. -/
def close (j : Nat) : EStateM.Result DecodeError Reader (List (Report Answer)) →
    EStateM.Result DecodeError Reader Answer
  | .ok reports r => .ok (.block reports) { r with depth := j }
  | .error e r => .error e { r with depth := j }

end Step

namespace Reader

def inside? (r : Reader) : Option Reader :=
  match nested get r with
  | .ok r' _ => some r'
  | .error _ _ => none

theorem inside?_eq (r : Reader) :
    r.inside? =
      if r.depth < r.limits.maxDepth then some { r with depth := r.depth + 1 } else none := by
  unfold inside? Reader.nested
  by_cases h : r.limits.maxDepth ≤ r.depth
  · rw [if_pos h, if_neg (Nat.not_lt.2 h)]
  · rw [if_neg h, if_pos (Nat.lt_of_not_le h)]
    rfl

end Reader

/-- While these steps are taken from the reader `r`, the reader `r'` begins the step `x` when `j` of
the blocks among them are open. -/
inductive Begins (x : Step) (r' : Reader) : (strict : Bool) → List Step → Reader → (j : Nat) → Prop
  | head {strict : Bool} {steps : List Step} : Begins x r' strict (x :: steps) r' 0
  /-- The steps after it go on from where it ended; in a strict block they are not taken when it has
  failed. -/
  | tail {strict : Bool} {step : Step} {steps : List Step} {r : Reader} {j : Nat}
    (hs : strict = true → ∃ a, step.take r = .ok a (after step.take r))
    (h : Begins x r' strict steps (after step.take r) j) : Begins x r' strict (step :: steps) r j
  /-- The steps of a block are begun by the reader that `nested` gives to them, if it gives one. -/
  | inside {strict strict' : Bool} {step : Step} {steps inner : List Step} {r r₁ : Reader} {j : Nat}
    (hb : step.block? = some (strict', inner)) (hr : r.inside? = some r₁)
    (h : Begins x r' strict' inner r₁ j) : Begins x r' strict (step :: steps) r (j + 1)

/-! ## The depth after a step -/

mutual

/-- A step leaves the depth as it was, and so do the steps inside it. -/
theorem steady_take (x : Step) (r : Reader) : Alike r (after x.take r) := by
  cases x with
  | block steps =>
    rw [take_of_block? rfl, after_map]
    exact nested_steady (steady_takeEach false steps) r
  | strictBlock steps =>
    rw [take_of_block? rfl, after_map]
    exact nested_steady (steady_takeEach true steps) r
  | _ => exact (composed_take rfl).steady r

theorem steady_takeEach (strict : Bool) (steps : List Step) (r : Reader) :
    Alike r (after (Step.takeEach strict steps) r) := by
  cases steps with
  | nil => cases strict <;> exact .refl r
  | cons step steps =>
    have hstep := steady_take step r
    obtain h | h := after_takeEach_cons strict step steps r
    · rw [h]
      exact hstep.trans (steady_takeEach strict steps _)
    · rwa [h]

end

section
variable {x : Step} {steps inner : List Step} {strict : Bool} {r r' : Reader} {j : Nat}

/-- The depth has grown by one for each open block, up to the limit at most. -/
theorem Begins.depth (h : Begins x r' strict steps r j) :
    r'.limits = r.limits ∧ r'.depth = r.depth + j ∧ (0 < j → r'.depth ≤ r.limits.maxDepth) := by
  induction h with
  | head => exact ⟨rfl, rfl, fun h => absurd h (Nat.lt_irrefl 0)⟩
  | @tail strict step steps r j _ _ ih =>
    obtain ⟨hl, hd⟩ := steady_take step r
    rwa [hl, hd] at ih
  | inside _ hr _ ih =>
    rw [inside?_eq] at hr
    split at hr
    · next hlt =>
      cases hr
      obtain ⟨hl, hd, hle⟩ := ih
      dsimp only at hl hd hle
      exact ⟨hl, by omega, fun _ => by omega⟩
    · cases hr

/-! ## What a step does -/

/-- A block that may be entered ends as its steps do, at the depth where it was begun. -/
theorem take_block (hx : x.block? = some (strict, inner)) (r : Reader) :
    x.take r =
      if r.depth < r.limits.maxDepth then
        Step.close r.depth (Step.takeEach strict inner { r with depth := r.depth + 1 })
      else
        .error (.depthExceeded r.limits.maxDepth) r := by
  rw [take_of_block? hx]
  by_cases hd : r.depth < r.limits.maxDepth
  · have hs := steady_takeEach strict inner { r with depth := r.depth + 1 }
    have hnested : nested (Step.takeEach strict inner) r = _ := if_neg (Nat.not_le.2 hd)
    rw [if_pos hd]
    cases hm : Step.takeEach strict inner { r with depth := r.depth + 1 } with
    | ok reports r' =>
      rw [after_ok hm] at hs
      rw [hm] at hnested
      rw [bind_ok hnested, hs.2]
      rfl
    | error e r' =>
      rw [after_error hm] at hs
      rw [hm] at hnested
      rw [bind_error hnested, hs.2]
      rfl
  · have hnested : nested (Step.takeEach strict inner) r = _ := if_pos (Nat.le_of_not_lt hd)
    rw [if_neg hd, bind_error hnested]

theorem parallel_take (hx : x.block? = none) (k : Nat) : Parallel k x.take := by
  refine leveled_parallel.take (fun k => ⟨?_, fun w => ?_⟩) hx k
  · exact parallel_throw (e := .range .w8) (by rintro _ ⟨⟩)
  · exact parallel_throw (e := .unhandledTarget .unsignedInteger) (by rintro _ ⟨⟩)

end

/-! ## Sessions -/

section
variable {x : Step} {steps : List Step} {source : Source} {limits : Limits} {r : Reader} {j : Nat}

/-- At each step of a session, whatever was done before and however it failed, the depth is the
number of open blocks, before and after the step. So a block that is begun inside `j` others takes
its steps just if `j` is less than the limit, and is refused with nothing read otherwise. All other
steps do inside `j` blocks what they do in a new reader, of any source that delivers the same, whose
limit is lower by `j`; only an error about depth names another limit. -/
theorem depth_counts_blocks (h : Begins x r false steps { source, limits } j) :
    (j ≤ limits.maxDepth ∧ r.depth = j ∧ (after x.take r).depth = j) ∧
    (∀ strict inner, x.block? = some (strict, inner) →
      x.take r =
        if j < limits.maxDepth then
          Step.close j (Step.takeEach strict inner { r with depth := j + 1 })
        else
          .error (.depthExceeded limits.maxDepth) r) ∧
    (x.block? = none → ∀ source' : Source, r.source.Matches source' →
      let new : Reader :=
        { source := source', limits := { limits with maxDepth := limits.maxDepth - j } }
      EndsAlike r new (x.take r) (x.take new)) := by
  obtain ⟨hl, hd, hle⟩ := h.depth
  dsimp only at hl hd hle
  rw [Nat.zero_add] at hd
  refine ⟨⟨?_, hd, (steady_take x r).2.trans hd⟩, fun strict inner hx => ?_,
    fun hx source' hsource => ?_⟩
  · rcases Nat.eq_zero_or_pos j with rfl | hj
    · exact Nat.zero_le _
    · exact hd ▸ hle hj
  · rw [take_block hx, hl, hd]
  · refine parallel_take hx (limits.maxDepth - j) ⟨?_, ?_, ?_, rfl, hsource⟩
    · rw [hl]
    · rw [hl]
    · rw [hl, hd]

/-- After a tuple that lies one level too deep has broken off a strict block, a block where two are
open is refused, and a tuple where one is open is read, although its source delivers byte by byte
and with interruptions. -/
theorem depth_counts_blocks_broken_off :
    let limits : Limits := { maxDepth := 2 }
    let source : Source :=
      { pending := [104, 1, 104, 1, 97, 7], chunk := some 1, interrupts := true }
    let steps : List Step :=
      [.block [.strictBlock [.term, .version], .strictBlock [.block [.version]], .term]]
    let r : Reader :=
      { source := { source with pending := [104, 1, 97, 7], delivered := 2 }, limits, depth := 1,
        consumed := 2 }
    let refused : Reader := { r with depth := 2 }
    (Begins (.block [.version]) refused false steps { source, limits } 2 ∧
      (Step.block [.version]).take refused = .error (.depthExceeded 2) refused) ∧
    Begins .term r false steps { source, limits } 1 ∧
      ∃ r', Step.term.take r = .ok (.term (.tuple [.int 7])) r' ∧ r'.depth = 1 ∧
        r'.consumed = 6 := by
  intro limits source steps r refused
  have hbroken : after (Step.strictBlock [.term, .version]).take
      { source, limits, depth := 1 } = r := by decide +kernel
  have hrefused : after (Step.strictBlock [.block [.version]]).take r = r := by decide +kernel
  have hblock : Begins (.block [.version]) refused false steps { source, limits } 2 := by
    refine .inside rfl rfl (.tail (by rintro ⟨⟩) ?_)
    change Begins _ _ _ _ (after _ { source, limits, depth := 1 }) _
    rw [hbroken]
    exact .inside rfl rfl .head
  have hterm : Begins .term r false steps { source, limits } 1 := by
    refine .inside rfl rfl (.tail (by rintro ⟨⟩) (.tail (by rintro ⟨⟩) ?_))
    change Begins _ _ _ _ (after _ (after _ { source, limits, depth := 1 })) _
    rw [hbroken, hrefused]
    exact .head
  refine ⟨⟨hblock, (depth_counts_blocks hblock).2.1 false [.version] rfl⟩, hterm, ?_⟩
  have hmatches : r.source.Matches (.ofBytes [104, 1, 97, 7]) :=
    Source.matches_ofBytes (by decide) rfl
  have hends := (depth_counts_blocks hterm).2.2 rfl _ hmatches
  have hread : Reader.term (fresh { limits with maxDepth := 1 } [104, 1, 97, 7]) =
      .ok (.tuple [.int 7]) (memory { limits with maxDepth := 1 } 0 4 []) := by decide +kernel
  have hnew : Step.term.take
      { source := .ofBytes [104, 1, 97, 7], limits := { limits with maxDepth := 2 - 1 } } =
      .ok (.term (.tuple [.int 7])) (memory { limits with maxDepth := 1 } 0 4 []) := by
    rw [Step.take]
    exact bind_ok hread
  dsimp only at hends
  rw [hnew] at hends
  generalize Step.term.take r = o at hends ⊢
  cases hends with
  | @ok _ r₁ _ h =>
    obtain ⟨n, hn, hn'⟩ := h.consumed
    refine ⟨r₁, rfl, h.left.2, ?_⟩
    change 4 = 0 + n at hn'
    change r₁.consumed = 2 + n at hn
    omega

end

end ExternalTerm
