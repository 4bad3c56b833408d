import Typecase.Proofs.Types.Replacement
import Typecase.Proofs.Types.Formed
import Typecase.Proofs.Types.Rows
set_option autoImplicit false

/-!
# What types stand for

An assignment that says what every variable stands for, also one that has a link, says so of every
type, without a look at the store.  If it obeys the links of a store, then a type stands for what
it becomes under the assignment once links are followed.
-/

namespace Typecase

namespace Replacement

def kind : Replacement → Kind
  | .type _ => .type
  | .row _ _ => .row

/-- A replacement as a type; the rest of a record is a record. -/
def tree : Replacement → Tree
  | .type t => t
  | .row fields rest => .record fields rest

end Replacement

/-- How a record goes on that ends in `e`, under an assignment. -/
def RowEnd.value (α : Var → Replacement) (e : RowEnd) : LabelMap Tree × RowEnd :=
  e.replace fun v => some (α v)

namespace Tree

variable {t u : Tree} {e : RowEnd}

/-- The end of a record. -/
def rest? (t : Tree) : Option RowEnd :=
  match t.symbol with
  | .record _ rest => some rest
  | _ => none

/-- A record with further fields in front. -/
def prepend (fs : LabelMap Tree) : Tree → Tree
  | .record gs rest => .record (fs ++ gs) rest
  | t => t

theorem prepend_nil (t : Tree) : t.prepend [] = t := by cases t <;> rfl

theorem prepend_append (fs gs : LabelMap Tree) (t : Tree) :
    t.prepend (fs ++ gs) = (t.prepend gs).prepend fs := by
  cases t <;> simp [prepend]

theorem rest?_prepend (fs : LabelMap Tree) (t : Tree) : (t.prepend fs).rest? = t.rest? := by
  cases t <;> rfl

theorem exists_record (h : t.rest? = some e) : ∃ fields, t = .record fields e := by
  cases t <;> cases h
  exact ⟨_, rfl⟩

theorem part?_prepend (h : t.rest? = some e) (fs : LabelMap Tree) (l : String) :
    (t.prepend fs).part? (.field l) = (fs.lookup l).or (t.part? (.field l)) := by
  obtain ⟨gs, rfl⟩ := exists_record h
  exact List.lookup_append

theorem Same.rest?_eq (h : t.Same u) : t.rest? = u.rest? := by
  rw [rest?, rest?, h.symbol_eq]

theorem Same.field (h : t.Same u) (l : String) :
    SameAt (t.part? (.field l)) (u.part? (.field l)) := by
  have hsome : (t.part? (.field l)).isSome = (u.part? (.field l)).isSome := by
    rw [isSome_part?, isSome_part?, h.symbol_eq]
  cases ht : t.part? (.field l) <;> cases hu : u.part? (.field l) <;> simp [ht, hu] at hsome
  · exact .none
  · exact .some (h.part ht hu)

theorem same_of_rest (ht : t.rest? = some e) (hu : u.rest? = some e)
    (h : ∀ l, SameAt (t.part? (.field l)) (u.part? (.field l))) : t.Same u := by
  obtain ⟨fs, rfl⟩ := exists_record ht
  obtain ⟨gs, rfl⟩ := exists_record hu
  exact same_record.mpr ⟨rfl, h⟩

theorem Same.prepend (h : t.Same u) (fs : LabelMap Tree) : (t.prepend fs).Same (u.prepend fs) := by
  have hother : ∀ t : Tree, t.rest? = none → t.prepend fs = t := by
    intro t ht
    cases t <;> first | rfl | cases ht
  cases ht : t.rest? with
  | none => rwa [hother t ht, hother u (h.rest?_eq ▸ ht)]
  | some e =>
    have hu : u.rest? = some e := h.rest?_eq ▸ ht
    refine same_of_rest ((rest?_prepend fs t).trans ht) ((rest?_prepend fs u).trans hu) ?_
    intro l
    rw [part?_prepend ht, part?_prepend hu]
    cases fs.lookup l with
    | none => exact h.field l
    | some c => exact .refl _

end Tree

namespace Ty

mutual

/-- What a type stands for under an assignment.  A row stands for a record. -/
def denote (β : Var → Replacement) : Ty → Tree
  | .var v => (β v).tree
  | .con _ name args => .con name (denoteList β args)
  | .arrow _ a r => .arrow (denote β a) (denote β r)
  | .tuple _ es => .tuple (denoteList β es)
  | .record _ r => denote β r
  | .rowExtend _ ls r => (denote β r).prepend (denoteFields β ls)
  | .rowEmpty => .record [] .rigid
  | .lost => .lost

def denoteList (β : Var → Replacement) : List Ty → List Tree
  | [] => []
  | t :: ts => denote β t :: denoteList β ts

def denoteFields (β : Var → Replacement) : List (String × Ty) → List (String × Tree)
  | [] => []
  | (l, t) :: fs => (l, denote β t) :: denoteFields β fs

end

variable {α β : Var → Replacement}

theorem denoteList_eq (ts : List Ty) : denoteList β ts = ts.map (denote β) := by
  induction ts with
  | nil => rfl
  | cons t ts ih => rw [denoteList, ih, List.map_cons]

theorem denoteFields_eq (fs : List (String × Ty)) :
    denoteFields β fs = fs.map fun f => (f.1, denote β f.2) := by
  induction fs with
  | nil => rfl
  | cons f fs ih => rw [denoteFields, ih, List.map_cons]

theorem lookup_denoteFields (fs : List (String × Ty)) (l : String) :
    (denoteFields β fs).lookup l = (fs.lookup l).map (denote β) := by
  rw [denoteFields_eq, LabelMap.lookup_map]

theorem denote_row? {t r : Ty} (h : t.row? = some r) : t.denote β = r.denote β := by
  cases t <;> cases h <;> rfl

theorem denoteFields_congr {fs : List (String × Ty)} (h : ∀ f ∈ fs, f.2.denote α = f.2.denote β) :
    denoteFields α fs = denoteFields β fs := by
  rw [denoteFields_eq, denoteFields_eq]
  exact List.map_congr_left fun f hf => by rw [h f hf]

theorem denote_congr (t : Ty) (h : ∀ v ∈ t.vars, α v = β v) : t.denote α = t.denote β := by
  induction t using Ty.induction with
  | var v => rw [denote, denote, h v (by simp [vars])]
  | con _ _ ts ih | tuple _ ts ih =>
    rw [vars, forall_mem_varsList] at h
    rw [denote, denote, denoteList_eq, denoteList_eq,
      List.map_congr_left fun t ht => ih t ht (h t ht)]
  | arrow _ a r iha ihr =>
    rw [vars, List.forall_mem_append] at h
    rw [denote, denote, iha h.1, ihr h.2]
  | record _ r ih => rw [denote, denote, ih h]
  | rowExtend _ ls r ihls ihr =>
    rw [vars, List.forall_mem_append, varsFields_eq, forall_mem_varsList] at h
    have hls := List.forall_mem_map.mp fun t ht => ihls t ht (h.1 t ht)
    rw [denote, denote, denoteFields_congr hls, ihr h.2]
  | rowEmpty | lost => rfl

/-- What is in the place of a row stands for a record. -/
theorem exists_rest {kind : Var → Kind} : (r : Ty) → r.formed .row = true →
    (∀ v k, (v, k) ∈ r.uses .row → kind v = k) → (∀ v ∈ r.vars, (β v).kind = kind v) →
    ∃ e, (r.denote β).rest? = some e
  | .var v, _, huses, hβ => by
    have hkind := (hβ v (by simp [vars])).trans (huses v .row (by simp [uses]))
    rw [denote]
    cases hv : β v with
    | type t =>
      rw [hv] at hkind
      cases hkind
    | row fields rest => exact ⟨rest, rfl⟩
  | .rowExtend _ ls r, hformed, huses, hβ => by
    rw [formed, Bool.and_eq_true] at hformed
    obtain ⟨e, he⟩ := exists_rest r hformed.2 (fun v k hv => huses v k (by simp [uses, hv]))
      fun v hv => hβ v (by simp [vars, hv])
    exact ⟨e, (Tree.rest?_prepend _ _).trans he⟩
  | .rowEmpty, _, _, _ => ⟨.rigid, rfl⟩

end Ty

namespace Store

variable {s s' : Store} {kind : Var → Kind} {W : Set Ty} {V : Set Var} {α β : Var → Replacement}
  {x : Ty} {sym : Symbol} {e : RowEnd} {parts : Slot → Option Ty}

/-! ## Assignments that obey links -/

/-- `v`, bound to `t`, stands for what `t` stands for. -/
structure Stands (kind : Var → Kind) (V : Set Var) (β : Var → Replacement) (v : Var) (t : Ty) :
    Prop where
  vars : ∀ u ∈ t.vars, u ∈ V
  formed : t.formed (kind v) = true
  same : (Ty.denote β (.var v)).Same (t.denote β)

/-- The assignment obeys the links of the variables in `V`, none of which is quantified. -/
structure Obeys (kind : Var → Kind) (V : Set Var) (β : Var → Replacement) (s : Store) :
    Prop where
  lt : ∀ v ∈ V, v < s.size
  kinds : ∀ v ∈ V, (β v).kind = kind v
  calm : ∀ v ∈ V, s.state v ≠ .generic
  links : ∀ v ∈ V, ∀ t, s.state v = .linked t → Stands kind V β v t

/-- Variables are bound to what they stand for. -/
theorem Obeys.tuned (h : Obeys kind V β s) {vs : List Var} (htuned : Tuned vs s s')
    (hvs : ∀ v ∈ vs, ∃ t, s'.state v = .linked t ∧ Stands kind V β v t) : Obeys kind V β s' where
  lt := fun v hv => Nat.lt_of_lt_of_le (h.lt v hv) htuned.size_le
  kinds := h.kinds
  calm := by
    intro v hv
    by_cases hmem : v ∈ vs
    · obtain ⟨t, ht, -⟩ := hvs v hmem
      simp [ht]
    · rw [Ne, htuned.generic_iff (h.lt v hv) hmem]
      exact h.calm v hv
  links := by
    intro v hv t ht
    by_cases hmem : v ∈ vs
    · obtain ⟨t', ht', hstands⟩ := hvs v hmem
      rw [ht'] at ht
      cases ht
      exact hstands
    · exact h.links v hv t ((htuned.linked (h.lt v hv) hmem).mp ht)

/-- A new variable may stand for whatever is of its kind. -/
theorem Obeys.fresh (h : Obeys kind V β s) {r : Replacement} (hkind : r.kind = kind s.size)
    {l : Int} (hl : Level.Valid l) {t : Ty} (hrun : Ty.fresh l s = (t, s')) :
    Obeys kind (insert s.size V) (Function.update β s.size r) s' := by
  obtain ⟨-, htuned, hsize, hstate⟩ := fresh_run hl hrun
  have hold : ∀ v ∈ V, Function.update β s.size r v = β v := fun v hv =>
    Function.update_of_ne (Nat.ne_of_lt (h.lt v hv)) _ _
  refine ⟨?_, ?_, ?_, ?_⟩ <;> rintro v (rfl | hv)
  · exact hsize ▸ Nat.lt_succ_self _
  · exact Nat.lt_of_lt_of_le (h.lt v hv) htuned.size_le
  · rwa [Function.update_self]
  · rw [hold v hv]
    exact h.kinds v hv
  · simp [hstate]
  · rw [Ne, htuned.generic_iff (h.lt v hv) List.not_mem_nil]
    exact h.calm v hv
  · intro t ht
    rw [hstate] at ht
    cases ht
  · intro t ht
    have hbefore := (htuned.linked (h.lt v hv) List.not_mem_nil).mp ht
    obtain ⟨hvars, hformed, hsame⟩ := h.links v hv t hbefore
    refine ⟨fun u hu => Or.inr (hvars u hu), hformed, ?_⟩
    rw [Ty.denote_congr (.var v) (by simpa [Ty.vars] using hold v hv),
      Ty.denote_congr t fun u hu => hold u (hvars u hu)]
    exact hsame

section Walks

variable (h : Obeys kind V β s) {x : Ty} (hx : ∀ v ∈ x.vars, v ∈ V)
include h hx

/-- Along links, types stand for the same. -/
theorem Obeys.leads {t : Ty} (hxt : s.Leads x t) :
    (∀ v ∈ t.vars, v ∈ V) ∧ (x.denote β).Same (t.denote β) := by
  induction hxt with
  | done => exact ⟨hx, .refl _⟩
  | link hv _ ih =>
    obtain ⟨hvars, -, hsame⟩ := h.links _ (hx _ (by simp [Ty.vars])) _ hv
    obtain ⟨ht, hsame'⟩ := ih hvars
    exact ⟨ht, hsame.trans hsame'⟩

theorem Obeys.row {fs : List (String × Ty)} {e : RowEnd} (hrow : s.Row x fs e) :
    (∀ v ∈ e.toTy.vars, v ∈ V) ∧
      (x.denote β).Same ((e.toTy.denote β).prepend (Ty.denoteFields β fs)) := by
  induction hrow with
  | @extend m ls fs r e _ ih =>
    obtain ⟨he, hsame⟩ := ih fun v hv => hx v (List.mem_append_right _ hv)
    refine ⟨he, ?_⟩
    have happend : Ty.denoteFields β (ls ++ fs) = Ty.denoteFields β ls ++ Ty.denoteFields β fs := by
      simp [Ty.denoteFields_eq]
    rw [Ty.denote, happend, Tree.prepend_append]
    exact hsame.prepend _
  | link hv _ ih =>
    obtain ⟨hvars, -, hsame⟩ := h.links _ (hx _ (by simp [Ty.vars])) _ hv
    obtain ⟨he, hsame'⟩ := ih hvars
    exact ⟨he, hsame.trans hsame'⟩
  | flexible => exact ⟨hx, (Tree.prepend_nil _).symm ▸ .refl _⟩
  | rigid => exact ⟨hx, .refl _⟩

theorem Obeys.fields {fs : List (String × Ty)} {e : RowEnd} (hfields : s.Fields x fs e) :
    (∀ v ∈ e.toTy.vars, v ∈ V) ∧
      (x.denote β).Same ((e.toTy.denote β).prepend (Ty.denoteFields β fs)) := by
  induction hfields with
  | link hv _ ih =>
    obtain ⟨hvars, -, hsame⟩ := h.links _ (hx _ (by simp [Ty.vars])) _ hv
    obtain ⟨he, hsame'⟩ := ih hvars
    exact ⟨he, hsame.trans hsame'⟩
  | row hr hrow =>
    rw [Ty.denote_row? hr]
    exact h.row (by rwa [vars_row? hr]) hrow

/-- Types and rows are in their places behind links as well. -/
theorem Obeys.formed {k : Kind} (hproper : s.Proper kind k x) (hformed : x.formed k = true) :
    s.Formed k x := by
  induction hproper with
  | intro husable _ ih =>
    refine .intro hformed fun v k' u hv hu => ?_
    obtain ⟨hvars, hformed', -⟩ := h.links v (hx v (Ty.mem_vars_of_uses hv)) u hu
    exact ih v k' u hv hu hvars ((husable v k' hv).kind ▸ hformed')

end Walks

/-- The end of a row stands for a record. -/
theorem Obeys.rest (h : Obeys kind V β s) (he : ∀ v ∈ e.toTy.vars, v ∈ V)
    (hproper : s.Proper kind .row e.toTy) : ∃ e', (e.toTy.denote β).rest? = some e' :=
  Ty.exists_rest _ (by cases e <;> rfl) (fun _ _ hv => (hproper.usable hv).kind)
    fun v hv => h.kinds v (he v hv)

/-! ## What types show -/

/-- A type with this symbol and these parts may stand for `t`, where parts stand for what `m`
says. -/
structure Shows (m : Ty → Tree) (t : Tree) (sym : Symbol) (parts : Slot → Option Ty) : Prop where
  symbol : sym.open? = none → t.symbol = sym
  part : ∀ slot c, parts slot = some c → ∃ u, t.part? slot = some u ∧ u.Same (m c)

theorem Shows.same {m : Ty → Tree} {t u : Tree} (h : Shows m t sym parts) (hsame : u.Same t) :
    Shows m u sym parts where
  symbol := fun hopen => hsame.symbol_eq ▸ h.symbol hopen
  part := by
    intro slot c hc
    obtain ⟨t', ht', hsame'⟩ := h.part slot c hc
    obtain ⟨u', hu'⟩ := Tree.part?_of_symbol hsame.symm.symbol_eq ht'
    exact ⟨u', hu', (hsame.part hu' ht').trans hsame'⟩

theorem shows_args {t : Tree} (as : List Ty) (hsym : t.symbol = sym)
    (hpart : t.part? = Slot.nth (as.map (Ty.denote β))) :
    Shows (Ty.denote β) t sym (Slot.nth as) := by
  refine ⟨fun _ => hsym, ?_⟩
  intro slot c hc
  exact ⟨c.denote β, by rw [hpart, Slot.nth_map, hc]; rfl, .refl _⟩

/-- The assignment says what the types in `W` stand for, in accordance with the store. -/
structure Explains (kind : Var → Kind) (W : Set Ty) (V : Set Var) (β : Var → Replacement)
    (s : Store) : Prop extends Obeys kind V β s where
  tidy : s.Tidy kind W
  vars : ∀ x ∈ W, ∀ v ∈ x.vars, v ∈ V
  written : ∀ x ∈ W, x.formed .type = true

theorem Obeys.shows (h : Obeys kind V β s) (hx : ∀ v ∈ x.vars, v ∈ V)
    (hproper : s.Proper kind .type x) (hformed : x.formed .type = true)
    (hview : s.View x sym parts) : Shows (Ty.denote β) (x.denote β) sym parts := by
  induction hview with
  | @link v t _ _ hv _ ih =>
    obtain ⟨hvars, hformed', hsame⟩ := h.links v (hx v (by simp [Ty.vars])) t hv
    exact (ih hvars (hproper.link hv) (hproper.var.kind ▸ hformed')).same hsame
  | var =>
    constructor
    · rintro ⟨⟩
    · rintro _ _ ⟨⟩
  | @con m name args =>
    refine shows_args args ?_ ?_ <;> rw [Ty.denote, Ty.denoteList_eq]
    · simp [Tree.symbol]
    · rfl
  | arrow => exact shows_args [_, _] rfl rfl
  | @tuple m es =>
    refine shows_args es ?_ ?_ <;> rw [Ty.denote, Ty.denoteList_eq]
    · simp [Tree.symbol]
    · rfl
  | @record x r fs e hr hrow =>
    have hrowV : ∀ v ∈ r.vars, v ∈ V := by rwa [vars_row? hr]
    obtain ⟨he, hsame⟩ := h.row hrowV hrow
    obtain ⟨e', hrest⟩ := h.rest he (hrow.proper (hproper.row hr))
    rw [Ty.denote_row? hr]
    refine Shows.same ⟨?_, ?_⟩ hsame
    · intro hclosed
      cases e with
      | flexible v => cases hclosed
      | rigid =>
        have hlabels : LabelMap.has (Ty.denoteFields β fs ++ []) = LabelMap.has fs := by
          funext l
          simp [LabelMap.has, LabelMap.find?, Ty.lookup_denoteFields]
        exact congrArg (Symbol.record · RowEnd.rigid) hlabels
    · intro slot c hc
      cases slot with
      | index i => cases hc
      | field l =>
        have hlookup : fs.lookup l = some c := hc
        refine ⟨c.denote β, ?_, .refl _⟩
        rw [Tree.part?_prepend hrest, Ty.lookup_denoteFields, hlookup]
        rfl
  | invalid hr hnone =>
    obtain ⟨fs, e, hrow⟩ := ((h.formed hx hproper hformed).row hr).exists_row
    exact absurd hrow (hnone fs e)
  | lost => cases hformed

theorem Explains.shows (h : Explains kind W V β s) (hx : x ∈ W) (hview : s.View x sym parts) :
    Shows (Ty.denote β) (x.denote β) sym parts :=
  h.toObeys.shows (h.vars x hx) (h.tidy.proper x hx) (h.written x hx) hview

theorem Explains.formed (h : Explains kind W V β s) (hx : x ∈ W) : s.Formed .type x :=
  h.toObeys.formed (h.vars x hx) (h.tidy.proper x hx) (h.written x hx)

/-! ## Values -/

/-- What a type becomes under an assignment, once links are followed. -/
def value (s : Store) (α : Var → Replacement) (x : Ty) : Tree :=
  (s.resolve x).replace fun v => some (α v)

theorem Fields.value {fs : List (String × Ty)} (h : s.Fields x fs e) (hx : s.Resolvable x)
    (hnodup : (fs.map (·.1)).Nodup) (α : Var → Replacement) :
    s.value α x =
      (Tree.record (e.value α).1 (e.value α).2).prepend (fs.map fun f => (f.1, s.value α f.2)) := by
  have hresolve : s.resolve x = .record (fs.map fun f => (f.1, s.resolve f.2)) e := by
    induction h with
    | link hv _ ih => rw [(hx.resolve_link hv).1, ih (hx.link hv) hnodup]
    | row hr hrow => rw [hx.resolve_row hr, hrow.resolveRow (hx.row hr) hnodup, Option.elim_some]
  unfold Store.value
  rw [hresolve, Tree.replace, Tree.replaceFields_eq, List.map_map]
  rfl

theorem Leads.resolve {t : Ty} (h : s.Leads x t) (hx : s.Resolvable x) :
    s.resolve x = s.resolve t := by
  induction h with
  | done => rfl
  | link hv _ ih => rw [(hx.resolve_link hv).1, ih (hx.link hv)]

theorem RowEnd.record_value (he : ∀ v ∈ e.toTy.vars, α v = β v)
    (hkind : ∀ v ∈ e.toTy.vars, (β v).kind = .row) :
    Tree.record (e.value α).1 (e.value α).2 = e.toTy.denote β := by
  cases e with
  | rigid => rfl
  | flexible v =>
    have hv : v ∈ (RowEnd.flexible v).toTy.vars := by simp [RowEnd.toTy, Ty.vars]
    have hkind := hkind v hv
    rw [RowEnd.value, RowEnd.replace, he v hv]
    show _ = (β v).tree
    cases hβ : β v with
    | type t =>
      rw [hβ] at hkind
      cases hkind
    | row fields rest => rfl

/-- Types become what they stand for. -/
theorem Explains.value_same (h : Explains kind W V β s)
    (hα : ∀ v ∈ V, (∀ t, s.state v ≠ .linked t) → α v = β v) (hx : x ∈ W) :
    (s.value α x).Same (x.denote β) := by
  have hacc := (h.tidy.resolvable x hx).acc
  induction hacc with
  | intro x _ ih =>
    have hresolvable := h.tidy.resolvable x hx
    obtain ⟨sym, parts, hview⟩ := hresolvable.exists_view
    have hparts : ∀ slot c, parts slot = some c → (s.value α c).Same (c.denote β) := by
      intro slot c hc
      have hchild : s.Child x c := ⟨sym, parts, slot, hview, hc⟩
      exact ih c hchild (h.tidy.parts x hx c hchild)
    obtain ⟨hsymbol, hpart⟩ := hview.resolve hresolvable (h.tidy.noRepeat x hx)
    by_cases hvar : ∃ v, sym = .var v
    · obtain ⟨v, rfl⟩ := hvar
      obtain ⟨hleads, hunlinked⟩ := hview.leads
      obtain ⟨hvars, hsame⟩ := h.leads (h.vars x hx) hleads
      have hv := hvars v (by simp [Ty.vars])
      have hkind := (h.kinds v hv).trans ((h.tidy.proper x hx).leads hleads).var.kind
      refine Tree.Same.trans ?_ hsame.symm
      rw [value]
      cases hresolve : s.resolve x <;> rw [hresolve] at hsymbol <;> cases hsymbol
      rw [Tree.replace, hα v hv hunlinked, Ty.denote]
      cases hβ : β v with
      | type t => exact .refl t
      | row fields rest =>
        rw [hβ] at hkind
        cases hkind
    by_cases hrecord : ∃ labels e, sym = .record labels e
    · obtain ⟨labels, e, rfl⟩ := hrecord
      obtain ⟨fs, hfields, rfl, rfl⟩ := hview.fields
      obtain ⟨he, hsame⟩ := h.fields (h.vars x hx) hfields
      have hproper := hfields.proper (h.tidy.proper x hx)
      obtain ⟨e', hrest⟩ := h.rest he hproper
      refine Tree.Same.trans ?_ hsame.symm
      rw [hfields.value hresolvable (h.tidy.noRepeat x hx fs e hfields), RowEnd.record_value (by
        intro v hv
        obtain rfl := RowEnd.mem_vars.mp hv
        exact hα v (he v hv) hfields.unlinked) (by
        intro v hv
        obtain rfl := RowEnd.mem_vars.mp hv
        exact (h.kinds v (he v hv)).trans hproper.var.kind)]
      refine Tree.same_of_rest ((Tree.rest?_prepend _ _).trans hrest)
        ((Tree.rest?_prepend _ _).trans hrest) fun l => ?_
      rw [Tree.part?_prepend hrest, Tree.part?_prepend hrest, Ty.lookup_denoteFields,
        LabelMap.lookup_map]
      cases hl : fs.lookup l with
      | none => exact .refl _
      | some c => exact .some (hparts (.field l) c hl)
    · obtain ⟨hsymbol', hpart'⟩ := Tree.replace_node (a := s.resolve x) (fun v => some (α v))
        (fun v hv => hvar ⟨v, hsymbol.symm.trans hv⟩)
        fun labels e he => hrecord ⟨labels, e, hsymbol.symm.trans he⟩
      have hclosed : sym.open? = none := by
        rcases sym.cases_open with hopen | ⟨labels, v, hopen⟩ | hclosed
        · exact absurd hopen hvar
        · exact absurd ⟨labels, _, hopen⟩ hrecord
        · exact hclosed
      have hshows := h.shows hx hview
      refine .node ((hsymbol'.trans hsymbol).trans (hshows.symbol hclosed).symm) ?_
      intro slot t u ht hu
      rw [value, hpart', hpart, Option.map_map, Option.map_eq_some_iff] at ht
      obtain ⟨c, hc, rfl⟩ := ht
      obtain ⟨u', hu', hsame⟩ := hshows.part slot c hc
      rw [hu] at hu'
      cases hu'
      exact (hparts slot c hc).trans hsame.symm

/-- Equal types stand for the same. -/
theorem Explains.same_of_equal (h : Explains kind W V β s) {y : Ty} (hx : x ∈ W) (hy : y ∈ W)
    (hequal : s.Equal x y) : (x.denote β).Same (y.denote β) := by
  have hsame := hequal.same (h.tidy.resolvable x hx) (h.tidy.resolvable y hy) (h.tidy.noRepeats hx)
    (h.tidy.noRepeats hy)
  have hvalue : ∀ z ∈ W, (s.value β z).Same (z.denote β) := fun z hz =>
    h.value_same (fun _ _ _ => rfl) hz
  exact (hvalue x hx).symm.trans ((hsame.replace _).trans (hvalue y hy))

end Store

end Typecase
