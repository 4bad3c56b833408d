import Typecase.Proofs.Elaborate.Stepwise
import Typecase.Proofs.Elaborate.Registry
set_option autoImplicit false

/-!
# What elaboration leaves behind

Elaboration opens transactions, keeps a renaming while it makes an instance, and counts the value
declarations that it is inside of.  An error may stop it in the middle of any of these.  All the
same, nothing is left under way, and as many value declarations are around as before.
-/

namespace Typecase.Elaborate

open Source

variable {cfg : Config} {k : Nat}

/-- Nothing is under way, and `k` value declarations are around. -/
structure State.Settled (k : Nat) (s : State) : Prop where
  store : s.store.Idle
  valueDepth : s.valueDepth = k

/-- Outside of transactions, the store is left as it should be, and the value declarations that are
around are the same. -/
def Calm (s s' : State) : Prop :=
  s.store.speculative = false →
    s.store.KeepsQuiet s'.store ∧ s'.valueDepth = s.valueDepth

theorem Calm.settled {s s' : State} (h : Calm s s') (hs : s.Settled k) : s'.Settled k := by
  obtain ⟨hstore, hdepth⟩ := h hs.store.speculative
  exact ⟨hstore.idle_of_idle hs.store, hdepth.trans hs.valueDepth⟩

theorem respected_calm : Respected Calm where
  trans := by
    intro s s' s'' h h' hs
    obtain ⟨hstore, hdepth⟩ := h hs
    obtain ⟨hstore', hdepth'⟩ := h' hstore.speculative
    exact ⟨hstore.trans hstore', hdepth'.trans hdepth⟩
  step := fun hact hstore hdepth _ hs => ⟨hstore ▸ hact _ hs, hdepth⟩

/-- Every step of elaboration is calm.  A value declaration is left also after an error. -/
theorem pervasive_calm : Pervasive (fun _ => True) fun _ m => ∀ s, Calm s (m cfg s).2 where
  toStepwise := respected_calm.stepwise
  freshParam := fun _ hs => ⟨.refl hs, rfl⟩
  countException := fun hk s => hk _ { s with exceptions := s.exceptions + 1 }
  withinValue := by
    intro α m level hm s hs
    obtain ⟨hstore, hdepth⟩ := hm (s.enterValue level) (by rwa [store_enterValue])
    rw [store_enterValue] at hstore
    refine ⟨hstore, ?_⟩
    show (m cfg (s.enterValue level)).2.valueDepth - 1 = s.valueDepth
    rw [hdepth, valueDepth_enterValue, Nat.add_sub_cancel]

theorem calm_run {α : Type} {m : ElaborateM α} {r : Except Stop α} {s s' : State}
    (h : ∀ s, Calm s (m cfg s).2) (hrun : m cfg s = (r, s')) : Calm s s' := by
  have hcalm := h s
  rwa [hrun] at hcalm

/-- Declarations, expressions and patterns leave nothing under way and as many value declarations
around as before, whatever their outcome `r` is. -/
theorem elaborate_settled (cfg : Config) (env : Env) (level : Int) (k : Nat) (s : State)
    (hs : s.Settled k) :
    (∀ d r s', elaborateDecl env level d cfg s = (r, s') → s'.Settled k) ∧
      (∀ e r s', elaborateExpr env level e cfg s = (r, s') → s'.Settled k) ∧
      ∀ p vars r s', elaboratePattern env level p vars cfg s = (r, s') → s'.Settled k := by
  refine ⟨?_, ?_, ?_⟩
  · intro d r s' hrun
    exact (calm_run (pervasive_calm.elaborateDecl trivial level d) hrun).settled hs
  · intro e r s' hrun
    exact (calm_run (pervasive_calm.elaborateExpr trivial level e) hrun).settled hs
  · intro p vars r s' hrun
    exact (calm_run (pervasive_calm.elaboratePattern trivial p vars) hrun).settled hs

/-- `val outer = let val inner = (fn x => x + 1) "one" in inner end` -/
def failsInside : Decl :=
  let p := Pos.none
  let sum : Expr := .app p (.var p "+") (.tuple p [.var p "x", .literal p ⟨.int, "1"⟩])
  let call : Expr := .app p (.fn p [⟨p, .var p "x", none, sum⟩]) (.literal p ⟨.string, "one"⟩)
  .val p false (.var p "outer") (.letIn p [.val p false (.var p "inner") call] (.var p "inner"))

/-- The state of the prelude, inside two value declarations. -/
def insideTwo : State := { store := (Env.initial {}).2, valueDepth := 2 }

/-- The function inside does not accept its argument. -/
theorem elaborate_settled_failsInside :
    insideTwo.Settled 2 ∧
      (elaborateDecl (Env.initial {}).1 0 failsInside {} insideTwo).1.isOk = false ∧
      (elaborateDecl (Env.initial {}).1 0 failsInside {} insideTwo).2.Settled 2 := by
  have hstart : insideTwo.Settled 2 :=
    ⟨⟨by decide +kernel, by decide +kernel, by decide +kernel⟩, by decide +kernel⟩
  refine ⟨hstart, by decide +kernel, ?_⟩
  generalize hrun : elaborateDecl (Env.initial {}).1 0 failsInside {} insideTwo = run
  exact (elaborate_settled {} (Env.initial {}).1 0 2 insideTwo hstart).1 failsInside run.1 run.2 hrun

end Typecase.Elaborate
