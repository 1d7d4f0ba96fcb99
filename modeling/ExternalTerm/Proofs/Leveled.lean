import ExternalTerm.Proofs.Compositional
import ExternalTerm.Proofs.Message

/-!
# Properties of terms and shapes, level by level

What a reader of nested data does can depend on how many levels the limit leaves. `Leveled P` says
what is to be shown of a property `P k`, for readers that may go `k` levels down:

* `Leveled.nested` : the contents of a tuple or a list;
* `Leveled.term`, `Leveled.shaped`, `Leveled.message` : so all terms, shapes and messages.
-/

namespace ExternalTerm

open Reader

namespace Reader

/-- The property holds at each number of levels of what is composed of actions of which it holds;
of nested actions it holds where no level is left, and one level up from where it holds of what is
inside. -/
structure Leveled (P : Nat → ∀ {α : Type}, ReadM α → Prop) : Prop where
  compositional (k : Nat) : Compositional (P k)
  nested_zero {α : Type} {m : ReadM α} (h : Composed m) : P 0 (Reader.nested m)
  nested_succ {α : Type} {m : ReadM α} {k : Nat} (hc : Composed m) (h : P k m) :
    P (k + 1) (Reader.nested m)

namespace Leveled
variable {P : Nat → ∀ {α : Type}, ReadM α → Prop} (hP : Leveled P)
include hP

theorem nested {α : Type} {m : ReadM α} (hc : Composed m) (h : ∀ k, P k m) (k : Nat) :
    P k (Reader.nested m) := by
  cases k with
  | zero => exact hP.nested_zero hc
  | succ k => exact hP.nested_succ hc (h k)

theorem term (k : Nat) : P k Reader.term := by
  induction k with
  | zero =>
    rw [term_eq]
    refine (hP.compositional 0).bind (hP.compositional 0).byte ((hP.compositional 0).termBody ?_)
    exact fun n => hP.nested_zero (composed_term.repeated n)
  | succ k ih =>
    have hk := hP.compositional (k + 1)
    rw [term_eq]
    refine hk.bind hk.byte (hk.termBody fun n => ?_)
    exact hP.nested_succ (composed_term.repeated n) ((hP.compositional k).repeated ih n)

theorem recordBody {fields : List (Field Shape)} (h : ∀ f ∈ fields, ∀ k, P k (shaped f.value))
    (arity k : Nat) : P k (Reader.recordBody fields arity) := by
  have hc : Composed (shapedFields fields) :=
    composed.shapedFields fun f _ => composed_shaped f.value
  have hfields (k : Nat) : P k (shapedFields fields) :=
    (hP.compositional k).shapedFields fun f hf => h f hf k
  exact (hP.compositional k).recordBody (hP.nested hc hfields k) arity

theorem listBody {element : Shape} (h : ∀ k, P k (shaped element)) (tag : UInt8) (k : Nat) :
    P k (Reader.listBody element tag) := by
  have hc (n : Nat) : Composed (repeated n (shaped element)) := (composed_shaped element).repeated n
  have helements (n k : Nat) : P k (repeated n (shaped element)) :=
    (hP.compositional k).repeated (h k) n
  exact (hP.compositional k).listBody (fun n => hP.nested (hc n) (helements n) k) tag

/-- The property holds of a shape that can be matched at all. It holds of every shape if it holds of
those that are never matched. -/
theorem shaped_of {s : Shape}
    (hs : s.check = .ok () ∨
      ∀ k, P k (Reader.shaped (.integer .w8)) ∧ ∀ w, P k (Reader.shaped (.unsigned w)))
    (k : Nat) : P k (Reader.shaped s) := by
  have hk (k : Nat) := hP.compositional k
  induction s using Shape.induct generalizing k with
  | integer w =>
    cases w with
    | w8 => exact (hs.resolve_left nofun k).1
    | _ => exact (hk k).map ((hk k).integer _) _
  | unsigned w => exact (hs.resolve_left nofun k).2 w
  | bigInteger => exact (hk k).map (hk k).bigInteger _
  | text => exact (hk k).map ((hk k).bind (hk k).byte (hk k).textTagged) _
  | taggedText => exact (hk k).bind (hk k).byte fun b => (hk k).map ((hk k).taggedTextTagged b) _
  | record fields ih =>
    rw [shaped_record]
    refine (hk k).bind (hk k).byte fun b => (hk k).bind ((hk k).tupleArity b) fun n => ?_
    exact hP.recordBody (fun f hf => ih f hf (hs.imp_left fun h => Shape.check_of_mem h hf)) n k
  | list element ih =>
    rw [shaped_list]
    exact (hk k).bind (hk k).byte fun b => hP.listBody (ih hs) b k
  | any => exact (hk k).map (hP.term k) _

/-- The property holds of all shapes that can be matched at all. -/
theorem shaped {s : Shape} (hs : s.check = .ok ()) (k : Nat) : P k (Reader.shaped s) :=
  hP.shaped_of (.inl hs) k

theorem message {s : Shape} (hs : s.check = .ok ()) (k : Nat) : P k (readMessage s) :=
  (hP.compositional k).bind (hP.compositional k).version fun _ => hP.shaped hs k

end Leveled

end Reader

end ExternalTerm
