import Typecase.Proofs.Elaborate.Generalization
import Typecase.Proofs.Elaborate.Registry
import Typecase.Proofs.Elaborate.Stepwise
set_option autoImplicit false

/-!
# Computations that introduce no exceptions

Nothing but the declaration of an exception counts exceptions.  Types, patterns, matches and all
forms of expressions and declarations leave the count alone, apart from what their parts do.
-/

namespace Typecase.Elaborate

open Source

variable {α β : Type} {cfg : Config} {env : Env} {level : Int} {pos : Pos}

/-- Whatever `m` is run in, the number of exceptions is the same afterwards. -/
def Steady (cfg : Config) (m : ElaborateM α) : Prop :=
  ∀ s, (m cfg s).2.exceptions = s.exceptions

section Steady

variable {m : ElaborateM α} {k : α → ElaborateM β}

theorem Steady.pure (a : α) : Steady cfg (pure a) := fun _ => rfl

theorem Steady.fail {p : Problem} : Steady cfg (fail pos p : ElaborateM α) := fun _ => rfl

theorem respected_steady : Respected fun s s' => s'.exceptions = s.exceptions :=
  ⟨fun h h' => h'.trans h, fun _ _ _ h => h⟩

theorem Steady.bind (hm : Steady cfg m) (hk : ∀ a, Steady cfg (k a)) : Steady cfg (m >>= k) :=
  respected_steady.chain hm fun a _ => hk a

theorem Steady.fail_bind {p : Problem} :
    Steady cfg ((Elaborate.fail pos p : ElaborateM α) >>= k) := fun _ => rfl

theorem Steady.liftStore (act : StoreM α) : Steady cfg (liftStore act) := fun _ => rfl

theorem Steady.freshType : Steady cfg (freshType level) := .liftStore _

theorem Steady.get {k : State → ElaborateM β} (hk : ∀ s, Steady cfg (k s)) :
    Steady cfg (get >>= k) := .bind (fun _ => rfl) hk

theorem Steady.modify {f : State → State} (hf : ∀ s, (f s).exceptions = s.exceptions) :
    Steady cfg (modify f : ElaborateM PUnit) := hf

theorem Steady.trace (message : String) (values : List (String × Log.Value)) :
    Steady cfg (trace message values) := fun _ => rfl

end Steady

/-- No step of elaboration other than the declaration of an exception counts exceptions. -/
theorem stepwise_steady : Stepwise (fun _ => True) fun _ m => Steady cfg m :=
  respected_steady.stepwise

theorem steady_freshParam : Steady cfg freshParam :=
  .get fun _ => .bind (.modify fun _ => rfl) fun _ => .pure _

theorem steady_function (param result : Ty) (rules : List Typed.Rule) :
    Steady cfg (function pos param result rules) := by
  unfold function
  exact .bind (stepwise_steady.compileMatch _ _ _) fun _ => .bind steady_freshParam fun _ =>
    .bind (.liftStore _) fun _ => .pure _

end Typecase.Elaborate
