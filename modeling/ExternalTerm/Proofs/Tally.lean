import ExternalTerm.Proofs.Position
import ExternalTerm.Proofs.Steps

/-!
# The count of consumed bytes

A reader counts the bytes of a fixed size as they arrive, but those of a run only when the source
has not failed within it.

* `Step.traceAll` : the operations of a session, and the reader after each of them;
* `Tally` : a reader has counted what its source has delivered, or the source failed within a run;
* `Composed.tallies`, `counted_traceAll` : every action keeps this, and so does every session;
* `consumed_eq_delivered_or_cut` : so the count is right until a run has met a failing source.
-/

namespace ExternalTerm

open Reader

/-! ## The operations of a session -/

/-- The step can read runs of bytes; the others, apart from the steps inside blocks, read parts of a
fixed size only. -/
def Step.ReadsRuns : Step → Prop
  | .run _ | .integer _ | .bigInteger | .bigIntegerBody | .text | .textTagged _
  | .taggedTextTagged _ | .term | .shaped _ => True
  | _ => False

structure Event where
  step : Step
  error? : Option DecodeError
  reader : Reader

def Step.ending (step : Step) (r : Reader) : Event :=
  match step.take r with
  | .ok _ r' => ⟨step, none, r'⟩
  | .error e r' => ⟨step, some e, r'⟩

mutual

/-- What ends while a step is taken: the steps inside a block one after the other, and then the step
itself. -/
def Step.trace : Step → Reader → List Event
  | .block steps, r =>
    (if r.limits.maxDepth ≤ r.depth then []
      else Step.traceAll steps { r with depth := r.depth + 1 }) ++ [Step.ending (.block steps) r]
  | .strictBlock steps, r =>
    (if r.limits.maxDepth ≤ r.depth then []
      else Step.traceStrictly steps { r with depth := r.depth + 1 }) ++
        [Step.ending (.strictBlock steps) r]
  | step, r => [step.ending r]

def Step.traceAll : List Step → Reader → List Event
  | [], _ => []
  | step :: steps, r => Step.trace step r ++ Step.traceAll steps (after step.take r)

def Step.traceStrictly : List Step → Reader → List Event
  | [], _ => []
  | step :: steps, r =>
    Step.trace step r ++
      match step.take r with
      | .ok _ r' => Step.traceStrictly steps r'
      | .error _ _ => []

end

/-- The step can have lost count of bytes: it reads runs, and reports that the source failed. -/
def Event.Cuts (e : Event) : Prop := e.step.ReadsRuns ∧ e.error? = some .sourceFailed

namespace Reader

/-! ## The tally -/

/-- The reader of a source that fails at `stop` has counted all bytes delivered, unless there was a
`cut`: then some bytes before the failure may be missing. -/
structure Tally (stop : Option Nat) (cut : Prop) (r : Reader) : Prop where
  failAt : r.source.failAt = stop
  bounded : ∀ p, stop = some p → r.source.delivered ≤ p
  counted : r.consumed = r.source.delivered ∨
    cut ∧ r.consumed < r.source.delivered ∧ stop = some r.source.delivered

/-- The reader in which the action ends keeps its tally, unless a lossy action reports that the
source failed. -/
def Settled (stop : Option Nat) (cut lossy : Prop) {α : Type} :
    EStateM.Result DecodeError Reader α → Prop
  | .ok _ r => Tally stop cut r
  | .error e r => Tally stop (cut ∨ lossy ∧ e = .sourceFailed) r

def Tallies (lossy : Prop) {α : Type} (m : ReadM α) : Prop :=
  ∀ ⦃stop cut r⦄, Tally stop cut r → Settled stop cut lossy (m r)

section
variable {α β : Type} {m : ReadM α} {f : α → ReadM β} {stop : Option Nat} {cut cut' lossy : Prop}
  {r : Reader} {n : Nat}

theorem Tally.mono (h : Tally stop cut r) (hc : cut → cut') : Tally stop cut' r where
  failAt := h.failAt
  bounded := h.bounded
  counted := h.counted.imp_right fun h => ⟨hc h.1, h.2⟩

theorem Tally.error {e : DecodeError} (h : Tally stop cut r) :
    Settled stop cut lossy (.error e r : EStateM.Result DecodeError Reader α) := h.mono .inl

theorem Tally.drawn (h : Tally stop cut r) (n : Nat) : Tally stop cut (r.drawn n) := by
  have hs := (r.source.pull_advances n).1
  refine ⟨hs.failAt.trans h.failAt,
    fun p hp => hs.bounded p (h.failAt.trans hp) (h.bounded p hp), ?_⟩
  rcases h.counted with hc | ⟨hcut, hlt, hstop⟩
  · exact .inl (by rw [Reader.drawn, hc]; exact hs.delivered.symm)
  · have hzero := hs.eq_zero (h.failAt.trans hstop)
    have hd := hs.delivered
    rw [hzero, Nat.add_zero] at hd
    refine .inr ⟨hcut, ?_⟩
    rw [Reader.drawn, hzero]
    dsimp only
    rw [hd]
    exact ⟨hlt, hstop⟩

/-- A run that the source cuts short leaves the bytes it got uncounted. -/
theorem Tally.short (h : Tally stop cut r) (hf : (r.source.pull n).1.failed = true) :
    Tally stop True { r with source := (r.source.pull n).2 } := by
  obtain ⟨hs, hex⟩ := r.source.pull_advances n
  have hstop := hs.failAt.trans h.failAt
  have hbounded (p : Nat) (hp : stop = some p) : (r.source.pull n).2.delivered ≤ p :=
    hs.bounded p (h.failAt.trans hp) (h.bounded p hp)
  refine ⟨hstop, hbounded, ?_⟩
  have hle : r.consumed ≤ (r.source.pull n).2.delivered := by
    have := hs.delivered
    rcases h.counted with hc | ⟨-, hlt, -⟩ <;> omega
  rcases Nat.eq_or_lt_of_le hle with heq | hlt
  · exact .inl heq
  · obtain ⟨p, hp, hle⟩ : ∃ p, stop = some p ∧ p ≤ (r.source.pull n).2.delivered := by
      have := hex hf
      simpa [Source.exhausted, hstop, Option.any_eq_true] using this
    exact .inr ⟨trivial, hlt, by rw [hp, Nat.le_antisymm hle (hbounded p hp)]⟩

/-- An action that leaves a reader with its tally keeps the tally, however it ends. -/
theorem Tally.settled (h : Tally stop cut (after m r)) : Settled stop cut lossy (m r) := by
  unfold after at h
  cases hr : m r with
  | ok a r' => rwa [hr] at h
  | error e r' =>
    rw [hr] at h
    exact h.error

/-! ## Every action keeps the tally -/

theorem tallies_pure (a : α) : Tallies lossy (pure a) := fun _ _ _ h => h

theorem tallies_throw (e : DecodeError) : Tallies lossy (throw e : ReadM α) :=
  fun _ _ _ h => h.error

theorem Tallies.bind (hm : Tallies lossy m) (hf : ∀ a, Tallies lossy (f a)) :
    Tallies lossy (m >>= f) := by
  intro stop cut r h
  have hr := hm h
  cases hmr : m r with
  | ok a r₁ =>
    rw [hmr] at hr
    rw [bind_ok hmr]
    exact hf a hr
  | error e r₁ =>
    rw [hmr] at hr
    rw [bind_error hmr]
    exact hr

theorem Tallies.rename {g : DecodeError → DecodeError}
    (hg : ∀ e, g e = e ∨ e.IsLack ∧ (g e).IsLack) (hm : Tallies lossy m) :
    Tallies lossy (EStateM.adaptExcept g m) := by
  intro stop cut r h
  have hr := hm h
  rw [adaptExcept_eq]
  cases hmr : m r with
  | ok a r₁ => rwa [hmr] at hr
  | error e r₁ =>
    rw [hmr] at hr
    have hkept : g .sourceFailed = .sourceFailed := (hg _).resolve_right fun h => h.1
    exact hr.mono (Or.imp_right fun ⟨hl, he⟩ => ⟨hl, he ▸ hkept⟩)

theorem tallies_exactly (n : Nat) : Tallies lossy (exactly n) := by
  intro stop cut r h
  obtain ⟨bytes, hr⟩ | ⟨e, hr⟩ := exactly_cases n r
  · rw [hr]
    exact h.drawn n
  · rw [hr]
    exact (h.drawn n).error

theorem tallies_checkElements (what : Kind) (n : Nat) : Tallies lossy (checkElements what n) := by
  intro stop cut r h
  change Settled stop cut lossy ((if r.limits.maxElements < n then
    throw (.limitExceeded what n r.limits.maxElements) else pure () : ReadM Unit) r)
  split
  · exact h.error
  · exact h

theorem sequential_tallies (lossy : Prop) : Sequential (Tallies lossy) where
  pure := tallies_pure
  throw _ := tallies_throw _
  bind := Tallies.bind
  rename := Tallies.rename
  exactly := tallies_exactly
  checkElements := tallies_checkElements

theorem tallies_run (n : Nat) : Tallies True (run n) := by
  intro stop cut r h
  obtain ⟨bytes, hr⟩ | ⟨e, hr⟩ | ⟨e, hr⟩ | ⟨hf, hr⟩ := run_cases n r
  · rw [hr]
    exact h.drawn n
  · rw [hr]
    exact (h.drawn n).error
  · rw [hr]
    exact h.error
  · rw [hr]
    exact (h.short hf).mono fun _ => .inr ⟨trivial, rfl⟩

/-- The tally does not depend on how deep the reader is. -/
theorem Tally.depth (h : Tally stop cut r) (d : Nat) : Tally stop cut { r with depth := d } :=
  ⟨h.failAt, h.bounded, h.counted⟩

theorem Tallies.nested (hm : Tallies lossy m) : Tallies lossy (Reader.nested m) := by
  intro stop cut r h
  have hr := hm (h.depth (r.depth + 1))
  obtain hn | ⟨a, r', hmr, hn⟩ | ⟨e, r', hmr, hn⟩ := nested_cases m r
  · rw [hn]
    exact h.error
  · rw [hmr] at hr
    rw [hn]
    exact hr.depth _
  · rw [hmr] at hr
    rw [hn]
    exact hr.depth _

theorem Composed.tallies (h : Composed m) : Tallies True m := by
  induction h with
  | pure a => exact tallies_pure a
  | throw _ => exact tallies_throw _
  | bind _ _ ihm ihf => exact ihm.bind ihf
  | ask _ ih => exact fun _ _ r h => ih r.limits r.depth h
  | exactly n => exact tallies_exactly n
  | run n => exact tallies_run n
  | nested _ ih => exact ih.nested
  | rename hg _ ih => exact ih.rename hg

end

end Reader

/-! ## Every session keeps the tally -/

section
variable {stop : Option Nat} {cut : Prop} {r r' : Reader} {step : Step}

/-- The readers in these events keep their tallies, each event that can lose count being a cut for
those after it; so does the last reader. -/
inductive Counted (stop : Option Nat) : Prop → List Event → Reader → Prop
  | nil {cut : Prop} {r : Reader} (h : Tally stop cut r) : Counted stop cut [] r
  | cons {cut : Prop} {r : Reader} {e : Event} {events : List Event}
      (h : Tally stop (cut ∨ e.Cuts) e.reader) (hs : Counted stop (cut ∨ e.Cuts) events r) :
      Counted stop cut (e :: events) r

theorem Counted.append {xs ys : List Event} (hx : Counted stop cut xs r)
    (hy : ∀ cut, Tally stop cut r → Counted stop cut ys r') : Counted stop cut (xs ++ ys) r' := by
  induction hx with
  | nil h => exact hy _ h
  | cons h _ ih => exact .cons h (ih hy)

theorem Counted.of_append {past future : List Event} {e : Event}
    (h : Counted stop cut (past ++ e :: future) r) :
    Tally stop (cut ∨ ∃ x ∈ past ++ [e], x.Cuts) e.reader := by
  induction past generalizing cut with
  | nil =>
    cases h with
    | cons h _ => exact h.mono (Or.imp_right fun he => ⟨e, List.mem_cons_self, he⟩)
  | cons x past ih =>
    cases h with
    | cons _ hs =>
      refine (ih hs).mono fun hcut => ?_
      obtain (hcut | hx) | ⟨y, hy, hcuts⟩ := hcut
      · exact .inl hcut
      · exact .inr ⟨x, List.mem_cons_self, hx⟩
      · exact .inr ⟨y, List.mem_cons_of_mem _ hy, hcuts⟩

theorem counted_ending {lossy : Prop} (hl : lossy → step.ReadsRuns)
    (h : Settled stop cut lossy (step.take r)) :
    Counted stop cut [step.ending r] (after step.take r) := by
  have he : (step.ending r).reader = after step.take r := by
    unfold Step.ending after
    cases step.take r <;> rfl
  have ht : Tally stop (cut ∨ (step.ending r).Cuts) (after step.take r) := by
    unfold Step.ending after
    cases hr : step.take r with
    | ok a r' =>
      rw [hr] at h
      exact h.mono .inl
    | error e r' =>
      rw [hr] at h
      exact h.mono (Or.imp_right fun ⟨h₁, h₂⟩ => ⟨hl h₁, congrArg some h₂⟩)
  exact .cons (he ▸ ht) (.nil ht)

/-- The steps that are no blocks keep the tally; a cut needs a step that reads runs. -/
theorem settled_take (hx : step.block? = none) (h : Tally stop cut r) :
    Settled stop cut step.ReadsRuns (step.take r) := by
  have hfixed := sequential_tallies False
  cases step with
  | unsigned size => exact hfixed.map (hfixed.unsigned size) _ h
  | int32 => exact hfixed.map hfixed.int32 _ h
  | checkElements count => exact hfixed.map (hfixed.checkElements .list count) _ h
  | version => exact hfixed.map hfixed.version _ h
  | nil => exact hfixed.map hfixed.nil _ h
  | listCount => exact hfixed.map hfixed.listCount _ h
  | tupleArity tag => exact hfixed.map (hfixed.tupleArity tag) _ h
  | block steps => cases hx
  | strictBlock steps => cases hx
  | _ => exact (composed_take hx).tallies h

/-! ## Blocks -/

/-- A block keeps the tally when the steps inside do. -/
theorem counted_block {α : Type} {m : ReadM α} {g : α → Answer} {inside : List Event}
    (ht : step.take = nested m >>= fun a => pure (g a))
    (hin : Counted stop cut inside (after m { r with depth := r.depth + 1 }))
    (h : Tally stop cut r) :
    Counted stop cut ((if r.limits.maxDepth ≤ r.depth then [] else inside) ++ [step.ending r])
      (after step.take r) := by
  have hlast {cut : Prop} (h : Tally stop cut (after step.take r)) :
      Counted stop cut [step.ending r] (after step.take r) := by
    have hs : Settled stop cut False (step.take r) := h.settled
    exact counted_ending False.elim hs
  have hafter := (after_map (nested m) g r).trans (after_nested m r)
  rw [← ht] at hafter
  by_cases hd : r.limits.maxDepth ≤ r.depth
  · rw [if_pos hd] at hafter ⊢
    rw [hafter] at hlast ⊢
    exact hlast h
  · rw [if_neg hd] at hafter ⊢
    rw [hafter] at hlast ⊢
    exact hin.append fun _ h => hlast (h.depth _)

end

section
variable {stop : Option Nat}

mutual

/-- The operations of a step keep the tally, at any depth of blocks. -/
theorem counted_trace (step : Step) {cut : Prop} {r : Reader} (h : Tally stop cut r) :
    Counted stop cut (Step.trace step r) (after step.take r) := by
  cases step with
  | block steps =>
    rw [Step.trace]
    exact counted_block (by rw [Step.take]) (counted_traceAll steps (h.depth _)) h
  | strictBlock steps =>
    rw [Step.trace]
    exact counted_block (by rw [Step.take]) (counted_traceStrictly steps (h.depth _)) h
  | _ => exact counted_ending id (settled_take rfl h)

theorem counted_traceAll (steps : List Step) {cut : Prop} {r : Reader} (h : Tally stop cut r) :
    Counted stop cut (Step.traceAll steps r) (Step.takeAll steps r).2 := by
  cases steps with
  | nil => exact .nil h
  | cons step steps =>
    rw [Step.traceAll, takeAll_cons]
    exact (counted_trace step h).append fun _ h => counted_traceAll steps h

theorem counted_traceStrictly (steps : List Step) {cut : Prop} {r : Reader}
    (h : Tally stop cut r) :
    Counted stop cut (Step.traceStrictly steps r) (after (Step.takeStrictly steps) r) := by
  cases steps with
  | nil => exact .nil h
  | cons step steps =>
    rw [Step.traceStrictly, after_takeStrictly_cons]
    refine (counted_trace step h).append fun cut h => ?_
    unfold after at h
    cases hr : step.take r with
    | ok a r' =>
      rw [hr] at h
      exact counted_traceStrictly steps h
    | error e r' =>
      rw [hr] at h
      exact .nil h

end

end

/-! ## Sessions -/

section
variable {source : Source} {limits : Limits} {steps : List Step} {past future : List Event}
  {e : Event}

/-- After each step of a session, failed steps and steps after them included, the reader has counted
the bytes that its source has delivered so far. The exception is a source that failed within a run:
from the step that reported it on, the bytes of that run before the failure are missing. -/
theorem consumed_eq_delivered_or_cut (hd : source.delivered = 0)
    (h : Step.traceAll steps { source, limits } = past ++ e :: future) :
    e.reader.consumed = e.reader.source.delivered ∨
      (∃ x ∈ past ++ [e], x.step.ReadsRuns ∧ x.error? = some .sourceFailed) ∧
        e.reader.consumed < e.reader.source.delivered ∧
        source.failAt = some e.reader.source.delivered := by
  have hstart : Tally source.failAt False { source, limits } :=
    ⟨rfl, fun p _ => by rw [hd]; exact Nat.zero_le p, .inl hd.symm⟩
  have hall := counted_traceAll steps hstart
  rw [h] at hall
  refine hall.of_append.counted.imp_right fun ⟨hcut, hlt, hstop⟩ => ⟨?_, hlt, hstop⟩
  exact hcut.resolve_left id

/-- A failure between the two bytes of a run leaves one byte uncounted, and the failure of the next
step, which reads a part of a fixed size, leaves it at that. -/
theorem consumed_eq_delivered_or_cut_version :
    let source : Source := { pending := [7, 1, 2, 3], failAt := some 2 }
    let first : Reader :=
      { source := { source with pending := [1, 2, 3], delivered := 1 }, limits := {},
        consumed := 1 }
    let failed : Reader :=
      { first with source := { source with pending := [2, 3], delivered := 2 } }
    let run : Event := ⟨.run 2, some .sourceFailed, failed⟩
    let version : Event := ⟨.version, some .sourceFailed, failed⟩
    let past : List Event := [⟨.unsigned 1, none, first⟩, run]
    Step.traceAll [.unsigned 1, .run 2, .version] { source, limits := {} } = past ++ [version] ∧
      (version.reader.consumed = version.reader.source.delivered ∨
        (∃ x ∈ past ++ [version], x.step.ReadsRuns ∧ x.error? = some .sourceFailed) ∧
          version.reader.consumed < version.reader.source.delivered ∧
          source.failAt = some version.reader.source.delivered) := by
  intro source first failed run version past
  have hfirst : Reader.unsigned 1 { source, limits := {} } = .ok 7 first := by decide +kernel
  have h : Step.traceAll [.unsigned 1, .run 2, .version] { source, limits := {} } =
      past ++ [version] := by
    simp only [Step.traceAll, Step.trace, Step.ending, Step.take, after, bind_ok hfirst]
    rfl
  have hd : source.delivered = 0 := rfl
  exact ⟨h, consumed_eq_delivered_or_cut hd h⟩

/-- The count is not always that of the bytes delivered: a run of two bytes that fails after the
first counts none. -/
theorem not_consumed_eq_delivered :
    ¬ ∀ (steps : List Step) (source : Source) (limits : Limits), source.delivered = 0 →
      (session steps source limits).2.consumed =
        (session steps source limits).2.source.delivered := by
  intro hall
  have hc : (session [.run 2] { pending := [1, 2], failAt := some 1 } {}).2.consumed = 0 := by
    decide +kernel
  have hd :
      (session [.run 2] { pending := [1, 2], failAt := some 1 } {}).2.source.delivered = 1 := by
    decide +kernel
  have h := hall [.run 2] { pending := [1, 2], failAt := some 1 } {} rfl
  rw [hc, hd] at h
  cases h

end

end ExternalTerm
