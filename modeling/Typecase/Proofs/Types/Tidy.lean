import Typecase.Proofs.Types.Kinds
import Typecase.Proofs.Types.Resolved
set_option autoImplicit false

/-!
# What unification relies on

Unification of two types relies on the order among all their parts: variables are used at one
kind, rows do not repeat labels, and rows with the same open end belong to equal types.  A
unification keeps this order, so that it can be relied on for what remains to be unified.
-/

namespace Typecase.Store

variable {s s' s'' : Store} {kind : Var → Kind} {W : Set Ty} {x y : Ty} {ps : List (Ty × Ty)}

/-- The order among the types in `W`, which contains the parts of its members. -/
structure Tidy (s : Store) (kind : Var → Kind) (W : Set Ty) : Prop where
  proper : ∀ x ∈ W, s.Proper kind .type x
  parts : ∀ x ∈ W, ∀ c, s.Child x c → c ∈ W
  noRepeat : ∀ x ∈ W, s.NoRepeat x
  /-- Rows with the same open end belong to equal types, unless the end is quantified. -/
  shared : ∀ x ∈ W, ∀ y ∈ W, ∀ fs gs v, s.Fields x fs (.flexible v) →
    s.Fields y gs (.flexible v) → s.state v ≠ .generic → s.Equal x y
  /-- Variables that are yet to be allocated stand for rows. -/
  unallocated : ∀ v, s.size ≤ v → kind v = .row

theorem Tidy.resolvable (h : s.Tidy kind W) : ∀ x ∈ W, s.Resolvable x :=
  fun x hx => (h.proper x hx).resolvable

theorem Tidy.below (h : s.Tidy kind W) (hx : x ∈ W) (hbelow : Relation.ReflTransGen s.Child x y) :
    y ∈ W := by
  induction hbelow with
  | refl => exact hx
  | tail _ hchild ih => exact h.parts _ ih _ hchild

theorem Tidy.noRepeats (h : s.Tidy kind W) (hx : x ∈ W) : s.NoRepeats x :=
  fun y hy => h.noRepeat y (h.below hx hy)

/-- Unifying the pairs `ps` leads from `s` to `s'`. -/
structure Unified (kind : Var → Kind) (W : Set Ty) (s : Store) (ps : List (Ty × Ty)) (s' : Store) :
    Prop where
  tidy : s'.Tidy kind W
  extension : Extends W s s'
  equal : ∀ p ∈ ps, s'.Equal p.1 p.2
  /-- A record gets more fields only if it is equal to one below the unified types. -/
  grown : ∀ x ∈ W, ∀ fs v, s.Fields x fs (.flexible v) → (∃ t, s'.state v = .linked t) →
    ∃ p ∈ ps, ∃ y, Relation.ReflTransGen s'.Child p.1 y ∧ s'.Equal x y

theorem Tidy.equal_extend (h : s.Tidy kind W) (h' : s'.Tidy kind W) (hext : Extends W s s')
    (hx : x ∈ W) (hy : y ∈ W) (hequal : s.Equal x y) : s'.Equal x y :=
  hequal.extend hext h.parts h.resolvable h'.resolvable hx hy

theorem Tidy.below_extend (h : s.Tidy kind W) (hext : Extends W s s') (hx : x ∈ W)
    (hbelow : Relation.ReflTransGen s.Child x y) : Relation.ReflTransGen s'.Child x y := by
  induction hbelow with
  | refl => exact .refl
  | @tail c d hc hchild ih =>
    have hmem := h.below hx hc
    exact ih.tail (hchild.extend hext hmem (h.resolvable c hmem))

/-- Nothing to unify. -/
theorem Tidy.unified_nil (h : s.Tidy kind W) : Unified kind W s [] s where
  tidy := h
  extension := .refl W s
  equal := fun _ hp => absurd hp List.not_mem_nil
  grown := by
    rintro x - fs v hfields ⟨t, ht⟩
    exact absurd ht (hfields.unlinked t)

/-- One unification after the other. -/
theorem Unified.append {qs : List (Ty × Ty)} (hs : s.Tidy kind W) (h : Unified kind W s ps s')
    (h' : Unified kind W s' qs s'') (hps : ∀ p ∈ ps, p.1 ∈ W ∧ p.2 ∈ W) :
    Unified kind W s (ps ++ qs) s'' where
  tidy := h'.tidy
  extension := h.extension.trans h'.extension hs.resolvable h.tidy.resolvable
  equal := by
    intro p hp
    rcases List.mem_append.mp hp with hp | hp
    · obtain ⟨hx, hy⟩ := hps p hp
      exact h.tidy.equal_extend h'.tidy h'.extension hx hy (h.equal p hp)
    · exact h'.equal p hp
  grown := by
    intro x hx fs v hfields hlinked
    by_cases hbefore : ∃ t, s'.state v = .linked t
    · obtain ⟨p, hp, y, hbelow, hequal⟩ := h.grown x hx fs v hfields hbefore
      obtain ⟨hp₁, -⟩ := hps p hp
      have hy := h.tidy.below hp₁ hbelow
      exact ⟨p, List.mem_append_left _ hp, y, h.tidy.below_extend h'.extension hp₁ hbelow,
        h.tidy.equal_extend h'.tidy h'.extension hx hy hequal⟩
    · -- the record is still open after the first unification
      have hfields' : s'.Fields x fs (.flexible v) :=
        hfields.keep h.extension (hs.resolvable x hx) (.flexible fun t ht => hbefore ⟨t, ht⟩)
      obtain ⟨p, hp, hgrown⟩ := h'.grown x hx fs v hfields' hlinked
      exact ⟨p, List.mem_append_right _ hp, hgrown⟩

/-- Types are unified once what is below them is. -/
theorem Unified.above {qs : List (Ty × Ty)} (h : Unified kind W s ps s')
    (hequal : ∀ q ∈ qs, s'.Equal q.1 q.2)
    (hbelow : ∀ p ∈ ps, ∃ q ∈ qs, Relation.ReflTransGen s'.Child q.1 p.1) :
    Unified kind W s qs s' where
  tidy := h.tidy
  extension := h.extension
  equal := hequal
  grown := by
    intro x hx fs v hfields hlinked
    obtain ⟨p, hp, y, hy, hxy⟩ := h.grown x hx fs v hfields hlinked
    obtain ⟨q, hq, hpath⟩ := hbelow p hp
    exact ⟨q, hq, y, hpath.trans hy, hxy⟩

theorem Unified.swap (h : Unified kind W s ps s') : Unified kind W s (ps.map Prod.swap) s' where
  tidy := h.tidy
  extension := h.extension
  equal := by
    intro q hq
    obtain ⟨p, hp, rfl⟩ := List.mem_map.mp hq
    exact (h.equal p hp).symm
  grown := by
    intro x hx fs v hfields hlinked
    obtain ⟨p, hp, y, hbelow, hxy⟩ := h.grown x hx fs v hfields hlinked
    obtain ⟨y', hbelow', hyy'⟩ := (h.equal p hp).descend hbelow
    exact ⟨p.swap, List.mem_map_of_mem hp, y', hbelow', hxy.trans hyy'⟩

/-- A record stays open while types below it are unified. -/
theorem Unified.still_open (h : Unified kind W s ps s') (hs : s.Tidy kind W) (hx : x ∈ W)
    (hps : ∀ p ∈ ps, s.Child x p.1) {fs : List (String × Ty)} {e : RowEnd}
    (hfields : s.Fields x fs e) : s'.Fields x fs e := by
  refine hfields.keep h.extension (hs.resolvable x hx) ?_
  cases e with
  | rigid => exact .rigid
  | flexible v =>
    refine .flexible ?_
    intro t ht
    obtain ⟨p, hp, y, hbelow, hequal⟩ := h.grown x hx fs v hfields ⟨t, ht⟩
    -- the record would be equal to a part of it
    have hchild := (hps p hp).extend h.extension hx (hs.resolvable x hx)
    exact (h.tidy.resolvable x hx).not_equal_part (.head' hchild hbelow) hequal

/-- Types of the same form are unified part by part. -/
theorem Unified.node {sym : Symbol} {k k' : Slot → Option Ty} (hs : s.Tidy kind W)
    (h : Unified kind W s ps s') (hx : x ∈ W) (hy : y ∈ W) (hviewx : s.View x sym k)
    (hviewy : s.View y sym k') (hclosed : sym.open? = none)
    (hparts : ∀ slot t u, k slot = some t → k' slot = some u → (t, u) ∈ ps)
    (hps : ∀ p ∈ ps, s.Child x p.1) : Unified kind W s [(x, y)] s' := by
  refine h.above (List.forall_mem_singleton.mpr ?_) ?_
  · refine .node (hviewx.extend h.extension (hs.resolvable x hx) (by simp [hclosed]))
      (hviewy.extend h.extension (hs.resolvable y hy) (by simp [hclosed])) ?_
    intro slot t u ht hu
    exact h.equal (t, u) (hparts slot t u ht hu)
  · intro p hp
    have hchild := (hps p hp).extend h.extension hx (hs.resolvable x hx)
    exact ⟨(x, y), List.mem_cons_self, .single hchild⟩

/-! ## Binding a variable that stands for a type -/

theorem Tuned.extension {vs : List Var} (h : Tuned vs s s')
    (hvs : ∀ v ∈ vs, ∀ t, s.state v ≠ .linked t)
    (hrows : ∀ x ∈ W, ∀ fs v, s.Fields x fs (.flexible v) → v ∈ vs →
      ∃ gs e, s'.Row (.var v) gs e) : Extends W s s' where
  size_le := h.size_le
  links := by
    intro v t hlt ht
    exact (h.linked hlt fun hmem => hvs v hmem t ht).mpr ht
  rows := by
    intro x hx fs v hfields
    by_cases hmem : v ∈ vs
    · exact hrows x hx fs v hfields hmem
    · exact ⟨[], .flexible v, .flexible (h.unlinked hmem hfields.unlinked)⟩

/-- The open variable of a type stands for the type, or for the rest of its fields. -/
theorem View.open_cases {sym : Symbol} {k : Slot → Option Ty} (h : s.View x sym k)
    (hx : s.Proper kind .type x) {v : Var} (hv : sym.open? = some v) :
    (∀ t, s.state v ≠ .linked t) ∧
      (sym = .var v ∧ kind v = .type ∨ ∃ fs, s.Fields x fs (.flexible v) ∧ kind v = .row) := by
  rcases sym.cases_open with ⟨w, rfl⟩ | ⟨labels, w, rfl⟩ | hnone
  · cases hv
    obtain ⟨hleads, hunlinked⟩ := h.leads
    exact ⟨hunlinked, Or.inl ⟨rfl, (hx.leads hleads).var.kind⟩⟩
  · cases hv
    obtain ⟨fs, hfields, -, -⟩ := h.fields
    exact ⟨hfields.unlinked, Or.inr ⟨fs, hfields, (hfields.usable hx).kind⟩⟩
  · rw [hnone] at hv
    cases hv

section Binding

variable {v : Var} {t y x : Ty}

/-- Allocating variables and lowering them keeps up the order. -/
theorem Tidy.tuned (h : s.Tidy kind W) (htuned : Tuned [] s s') : s'.Tidy kind W := by
  have hext : Extends W s s' := htuned.extension (fun _ hv => absurd hv List.not_mem_nil)
    fun _ _ _ _ _ hv => absurd hv List.not_mem_nil
  have hproper : ∀ z ∈ W, s'.Proper kind .type z := fun z hz =>
    (h.proper z hz).tuned htuned fun _ hv => absurd hv List.not_mem_nil
  have hkept : ∀ z ∈ W, (∀ fs e, s'.Fields z fs e → s.Fields z fs e) ∧
      ∀ c, s'.Child z c → s.Child z c := by
    intro z hz
    obtain ⟨sym, k, hview⟩ := (h.resolvable z hz).exists_view
    exact hview.kept hext (h.resolvable z hz) fun v hv =>
      htuned.unlinked List.not_mem_nil (hview.open_cases (h.proper z hz) hv).1
  refine ⟨hproper, fun z hz c hc => h.parts z hz c ((hkept z hz).2 c hc),
    fun z hz fs e hfields => h.noRepeat z hz fs e ((hkept z hz).1 fs e hfields), ?_,
    fun v hv => h.unallocated v (Nat.le_trans htuned.size_le hv)⟩
  intro x hx y hy fs gs v hfieldsx hfieldsy hcalm
  have hbeforex := (hkept x hx).1 _ _ hfieldsx
  have hbeforey := (hkept y hy).1 _ _ hfieldsy
  have hlt := lt_size_of_unlinked hbeforex.unlinked
  have hequal := h.shared x hx y hy fs gs v hbeforex hbeforey fun hgeneric =>
    hcalm ((htuned.generic_iff hlt List.not_mem_nil).mpr hgeneric)
  exact hequal.extend hext h.parts h.resolvable (fun z hz => (hproper z hz).resolvable) hx hy

section StandIn

variable (h : s.Tidy kind W) (hbinds : Binds v t s s') (hkind : kind v = .type)
include h hbinds hkind

theorem Tidy.binds_extension : Extends W s s' := by
  refine hbinds.tuned.extension ?_ ?_
  · intro w hw
    rw [List.mem_singleton] at hw
    exact hw ▸ hbinds.unlinked
  · intro x hx fs w hfields hw
    have hrow := (hfields.usable (h.proper x hx)).kind
    rw [List.mem_singleton] at hw
    rw [hw, hkind] at hrow
    cases hrow

theorem Tidy.binds_open (hx : x ∈ W) {sym : Symbol} {k : Slot → Option Ty} (hview : s.View x sym k)
    (hne : sym ≠ .var v) {w : Var} (hw : sym.open? = some w) : ∀ u, s'.state w ≠ .linked u := by
  obtain ⟨hunlinked, hcases⟩ := hview.open_cases (h.proper x hx) hw
  refine hbinds.tuned.unlinked ?_ hunlinked
  rw [List.mem_singleton]
  rintro rfl
  rcases hcases with ⟨heq, -⟩ | ⟨-, -, hrow⟩
  · exact hne heq
  · rw [hkind] at hrow
    cases hrow

theorem Tidy.binds_kept (hx : x ∈ W) {sym : Symbol} {k : Slot → Option Ty} (hview : s.View x sym k)
    (hne : sym ≠ .var v) :
    (∀ fs e, s'.Fields x fs e → s.Fields x fs e) ∧ ∀ c, s'.Child x c → s.Child x c :=
  hview.kept (h.binds_extension hbinds hkind) (h.resolvable x hx)
    fun _ => h.binds_open hbinds hkind hx hview hne

/-- What is known of a type after `v` is bound was known before of the type or of `y`. -/
theorem Tidy.stand_in (hproper : ∀ x ∈ W, s'.Proper kind .type x) (hy : y ∈ W) (hyt : s.Leads y t)
    (hoccurs : ¬ s.Reach t v) (hx : x ∈ W) :
    ∃ z ∈ W, s'.Equal x z ∧ (∀ fs e, s'.Fields x fs e → s.Fields z fs e) ∧
      ∀ c, s'.Child x c → s.Child z c := by
  have hext := h.binds_extension hbinds hkind
  have hresolvable := (hproper x hx).resolvable
  obtain ⟨sym, k, hview⟩ := (h.resolvable x hx).exists_view
  by_cases hsym : sym = .var v
  · -- `x` is bound, and now shows what `y` shows
    subst hsym
    have hxt : s'.Leads x t :=
      (hview.leads.1.extend hext (h.resolvable x hx)).trans (.link hbinds.linked .done)
    have hyt' : s'.Leads y t := hyt.extend hext (h.resolvable y hy)
    obtain ⟨sym', k', hviewy⟩ := (h.resolvable y hy).exists_view
    have hne : sym' ≠ .var v := by
      rintro rfl
      exact hoccurs (hyt.view_iff.mp hviewy).leads.1.reach
    obtain ⟨hfields, hchild⟩ := h.binds_kept hbinds hkind hy hviewy hne
    refine ⟨y, hy, hresolvable.equal_of_leads hxt hyt', ?_, ?_⟩
    · intro fs e hfs
      exact hfields fs e (hyt'.fields_iff.mpr (hxt.fields_iff.mp hfs))
    · rintro c ⟨sym, k, slot, hviewx, hc⟩
      exact hchild c ⟨sym, k, slot, hyt'.view_iff.mpr (hxt.view_iff.mp hviewx), hc⟩
  · exact ⟨x, hx, hresolvable.equal_refl, h.binds_kept hbinds hkind hx hview hsym⟩

end StandIn

/-- A variable is unified with a type by binding it. -/
theorem Tidy.unified_bind (h : s.Tidy kind W) (hx : x ∈ W) (hy : y ∈ W) (hxv : s.Leads x (.var v))
    (hyt : s.Leads y t) (hv : ∀ w, s.state v ≠ .linked w) (hrun : bind v t s = (.ok (), s')) :
    Unified kind W s [(x, y)] s' := by
  have husable := ((h.proper x hx).leads hxv).var
  have ht := (h.proper y hy).leads hyt
  obtain ⟨hbinds, hoccurs⟩ := bind_ok hv husable.leveled ht.resolvable hrun
  have hext := h.binds_extension hbinds husable.kind
  have hproper : ∀ z ∈ W, s'.Proper kind .type z := fun z hz =>
    (h.proper z hz).binds hbinds (husable.kind.symm ▸ ht) hoccurs
  have hresolvable : ∀ z ∈ W, s'.Resolvable z := fun z hz => (hproper z hz).resolvable
  have hstand := fun z (hz : z ∈ W) =>
    h.stand_in hbinds husable.kind hproper hy hyt hoccurs hz
  refine ⟨⟨hproper, ?_, ?_, ?_, ?_⟩, hext, List.forall_mem_singleton.mpr ?_, ?_⟩
  · intro z hz c hc
    obtain ⟨z', hz', -, -, hchild⟩ := hstand z hz
    exact h.parts z' hz' c (hchild c hc)
  · intro z hz fs e hfields
    obtain ⟨z', hz', -, hbefore, -⟩ := hstand z hz
    exact h.noRepeat z' hz' fs e (hbefore fs e hfields)
  · intro z₁ hz₁ z₂ hz₂ fs gs w hfields₁ hfields₂ hcalm
    obtain ⟨z₁', hz₁', hequal₁, hbefore₁, -⟩ := hstand z₁ hz₁
    obtain ⟨z₂', hz₂', hequal₂, hbefore₂, -⟩ := hstand z₂ hz₂
    have hne : w ∉ [v] := by
      rw [List.mem_singleton]
      rintro rfl
      exact hfields₁.unlinked t hbinds.linked
    have hlt := lt_size_of_unlinked (hbefore₁ _ _ hfields₁).unlinked
    have hequal := h.shared z₁' hz₁' z₂' hz₂' fs gs w (hbefore₁ _ _ hfields₁)
      (hbefore₂ _ _ hfields₂) fun hgeneric => hcalm ((hbinds.tuned.generic_iff hlt hne).mpr hgeneric)
    have hequal' := hequal.extend hext h.parts h.resolvable hresolvable hz₁' hz₂'
    exact hequal₁.trans (hequal'.trans hequal₂.symm)
  · intro w hw
    exact h.unallocated w (Nat.le_trans hbinds.tuned.size_le hw)
  · exact (hresolvable x hx).equal_of_leads
      ((hxv.extend hext (h.resolvable x hx)).trans (.link hbinds.linked .done))
      (hyt.extend hext (h.resolvable y hy))
  · -- the variable is not the end of a row
    rintro z hz fs w hfields ⟨u, hu⟩
    have hrow := (hfields.usable (h.proper z hz)).kind
    refine absurd hu (hbinds.tuned.unlinked ?_ hfields.unlinked u)
    rw [List.mem_singleton]
    rintro rfl
    rw [husable.kind] at hrow
    cases hrow

end Binding

end Typecase.Store
