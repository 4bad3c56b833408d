import Typecase.Proofs.Types.Copies
import Typecase.Proofs.Types.Speculation
set_option autoImplicit false

/-!
# Stores between operations

Outside of transactions, the operations on the store leave nothing under way, put nothing on the
trail and use no number again.
-/

namespace Typecase

namespace Store

variable {α : Type} {s s' : Store}

/-- Nothing is under way: no transaction is open, nothing waits to be undone, and no instance is
under construction. -/
structure Idle (s : Store) : Prop where
  speculative : s.speculative = false
  trail : s.trail = []
  renames : s.renames = []

/-- Outside of transactions, `s'` keeps the trail of `s`, is outside of transactions too, no
renaming is left behind, and no number is used again. -/
structure KeepsQuiet (s s' : Store) : Prop where
  speculative : s'.speculative = false
  trail : s'.trail = s.trail
  idle : s.renames = [] → s'.renames = []
  nextId_le : s.nextId ≤ s'.nextId

/-- Outside of transactions, nothing is put on the trail, and neither a transaction nor a renaming
is left behind. -/
def Quiet (act : StoreM α) : Prop := ∀ s, s.speculative = false → KeepsQuiet s (act s).2

theorem Reverts.keeps_quiet (h : Reverts s s') (hs : s.speculative = false) : KeepsQuiet s s' :=
  ⟨h.speculative.trans hs, h.quiet hs, h.idle, h.nextId_le⟩

theorem Supplied.keeps_quiet {n : Int} {known known' : Renaming} (h : Supplied n known s known' s')
    (hs : s.speculative = false) : KeepsQuiet s s' :=
  ⟨h.speculative.trans hs, h.trail, h.idle, h.nextId_le⟩

theorem KeepsQuiet.refl (hs : s.speculative = false) : KeepsQuiet s s :=
  ⟨hs, rfl, fun h => h, Nat.le_refl _⟩

theorem KeepsQuiet.trans {s'' : Store} (h : KeepsQuiet s s') (h' : KeepsQuiet s' s'') :
    KeepsQuiet s s'' :=
  ⟨h'.speculative, h'.trail.trans h.trail, fun hs => h'.idle (h.idle hs),
    Nat.le_trans h.nextId_le h'.nextId_le⟩

theorem KeepsQuiet.idle_of_idle (h : KeepsQuiet s s') (hs : s.Idle) : s'.Idle :=
  ⟨h.speculative, h.trail.trans hs.trail, h.idle hs.renames⟩

theorem quiet_newMark : Quiet newMark := fun s hs => (supplied_newMark 0 [] s).keeps_quiet hs

theorem quiet_fresh (level : Int) : Quiet (fresh level) :=
  fun s hs => (supplied_fresh rfl : Supplied level [] s [(0, _)] _).keeps_quiet hs

theorem quiet_freshType (level : Int) : Quiet (Ty.fresh level) := quiet_fresh level

theorem quiet_setState (v : Var) (st : VarState) :
    Quiet (modify fun s => s.setState v st : StoreM PUnit) :=
  fun _ hs => ⟨hs, rfl, fun h => h, Nat.le_refl _⟩

/-- One action after another. -/
theorem Quiet.seq {act : StoreM α} {f : α → StoreM PUnit} (h : Quiet act) (hf : ∀ a, Quiet (f a)) :
    Quiet (do let a ← act; f a; return a) :=
  fun s hs => (h s hs).trans (hf _ _ (h s hs).speculative)

theorem quiet_mkCon (name : String) (args : List Ty) : Quiet (Ty.mkCon name args) := by
  intro s hs
  unfold Ty.mkCon
  split
  · exact .refl hs
  · exact quiet_newMark s hs

theorem quiet_mkArrow (a r : Ty) : Quiet (Ty.mkArrow a r) := quiet_newMark

theorem quiet_mkTuple (ts : List Ty) : Quiet (Ty.mkTuple ts) := by
  intro s hs
  unfold Ty.mkTuple
  split
  · exact .refl hs
  · exact .refl hs
  · exact quiet_newMark s hs

theorem quiet_mkRecord (labels : LabelMap Ty) (row : Ty) : Quiet (Ty.mkRecord labels row) := by
  intro s hs
  have h := (reverts_extendRow s labels row).keeps_quiet hs
  exact h.trans (quiet_newMark _ h.speculative)

theorem quiet_instantiateFrom (level : Int) (given : Renaming) (t : Ty) :
    Quiet (instantiateFrom level given t) := by
  intro s hs
  obtain ⟨known, hsupplied, -⟩ := instantiateFrom_copyAt level given t s
  exact hsupplied.keeps_quiet hs

theorem quiet_instantiate (level : Int) (σ : Scheme) : Quiet (instantiate level σ) := by
  intro s hs
  unfold instantiate
  split
  · exact .refl hs
  · exact quiet_instantiateFrom level [] σ.type s hs

theorem quiet_instantiateWith (level : Int) (params : List Var) (args : List Ty) (body : Ty) :
    Quiet (instantiateWith level params args body) :=
  fun s hs => quiet_instantiateFrom level _ body s hs

theorem quiet_unify (a b : Ty) : Quiet (unify a b).run :=
  fun s hs => (reversible_unify a b s).keeps_quiet hs

theorem quiet_tryUnify (a b : Ty) : Quiet (tryUnify a b).run :=
  fun s hs => (reverts_tryUnify a b s).keeps_quiet hs

theorem quiet_canUnify (a b : Ty) : Quiet (canUnify a b) :=
  fun s hs => (reverts_canUnify a b s).keeps_quiet hs

theorem foldl_keepsQuiet {β : Type} {f : Store → β → Store}
    (hf : ∀ s b, s.speculative = false → KeepsQuiet s (f s b)) (bs : List β)
    (hs : s.speculative = false) : KeepsQuiet s (bs.foldl f s) := by
  induction bs generalizing s with
  | nil => exact .refl hs
  | cons b bs ih =>
    have hfirst := hf s b hs
    exact hfirst.trans (ih hfirst.speculative)

theorem quiet_generalize (level : Int) (t : Ty) : Quiet (generalize level t) := by
  intro s hs
  have hquantify : ∀ s v, s.speculative = false → KeepsQuiet s (quantify level s v) := by
    intro s v hs
    unfold quantify
    split
    · split
      · exact quiet_setState v _ s hs
      · exact .refl hs
    · exact .refl hs
  have hmark : ∀ s t, s.speculative = false → KeepsQuiet s (markGeneric s t) := by
    intro s t hs
    unfold markGeneric
    split
    · cases t.mark?.getD .plain <;> exact ⟨hs, rfl, fun h => h, Nat.le_refl _⟩
    · exact .refl hs
  have hfirst := foldl_keepsQuiet hquantify (s.reach (s.head t)) hs
  have hsecond := foldl_keepsQuiet hmark
    (((s.reach (s.head t)).foldl (quantify level) s).nodes (s.head t)) hfirst.speculative
  exact hfirst.trans hsecond

theorem quiet_restrict (level : Int) (t : Ty) :
    Quiet (modify fun s => s.restrict level t : StoreM PUnit) := by
  intro s hs
  refine foldl_keepsQuiet ?_ (s.reach t) hs
  intro s v hs
  split
  · split
    · exact quiet_setState v _ s hs
    · exact .refl hs
  · exact .refl hs

theorem keepsQuiet_compress (hs : s.speculative = false) : KeepsQuiet s s.compress := by
  have hforget : ∀ {s' : Store}, KeepsQuiet s s' → KeepsQuiet s { s' with recent := [] } := fun h =>
    ⟨h.speculative, h.trail, h.idle, h.nextId_le⟩
  refine hforget (foldl_keepsQuiet ?_ s.recent hs)
  intro s v hs
  split
  · exact quiet_setState v _ s hs
  · exact .refl hs

end Store

end Typecase
