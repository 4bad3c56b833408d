import Typecase.Proofs.Match.Matrix
import Typecase.Proofs.Match.Descriptions
import Mathlib.Algebra.GroupWithZero.Nat
set_option autoImplicit false

/-!
# Normalizing a matrix

Normalization goes through the columns from left to right.  It moves the names bound in
a column to the rows, and expands a column of tuples or records in place, so that at the
end every pattern is a wildcard or tests for a tag.

The relation `Expands` says what the bounded recursion `normalizeAt` computes, without
the bound.
-/

namespace Typecase.Match

variable {α : Type} {col : Nat} {Δ : Signature} {m m' : Matrix α} {p : Pattern α} {τ : Tree}
  {sh sh' : Option Shape} {path : Path}

/-! ## Binding the names of a column -/

theorem strip_isBare (path : Path) (p : Pattern α) : (Row.strip path p).2.isBare = true := by
  fun_induction Row.strip path p with
  | case1 => rfl
  | case2 note x p bindings q heq ih => simpa [heq] using ih
  | case3 p hvar hlayered =>
    cases p with
    | var note x => exact absurd rfl (hvar note x)
    | layered note x p => exact absurd rfl (hlayered note x p)
    | _ => rfl

theorem strip_accepts (path : Path) (p : Pattern α) (v : Val) :
    (Row.strip path p).2.accepts v = p.accepts v := by
  fun_induction Row.strip path p with
  | case1 => simp [Pattern.accepts]
  | case2 note x p bindings q heq ih =>
    rw [heq] at ih
    simpa [Pattern.accepts] using ih
  | case3 => rfl

theorem strip_admits (path : Path) (h : Δ.Admits p τ) : Δ.Admits (Row.strip path p).2 τ := by
  fun_induction Row.strip path p with
  | case1 => simp [Signature.Admits]
  | case2 note x p bindings q heq ih =>
    rw [heq] at ih
    rw [Signature.Admits] at h
    exact ih h
  | case3 => exact h

/-- Bind the names of a column. -/
def Matrix.bindAt (m : Matrix α) (col : Nat) (path : Path) : Matrix α :=
  { m with rows := m.rows.map (·.bind col path) }

theorem Row.bind_patterns {r : Row α} {ps qs : List (Pattern α)}
    (h : r.patterns = ps ++ r.pat col :: qs) (hlen : ps.length = col) (path : Path) :
    (r.bind col path).patterns = ps ++ (strip path (r.pat col)).2 :: qs := by
  show Match.splice r.patterns col [(strip path (r.pat col)).2] = _
  rw [h, splice_append _ _ _ _ hlen]
  simp

theorem Row.bind_pat {r : Row α} {ps qs : List (Pattern α)} (h : r.patterns = ps ++ r.pat col :: qs)
    (hlen : ps.length = col) (path : Path) :
    (r.bind col path).pat col = (strip path (r.pat col)).2 := by
  rw [Row.pat, Row.bind_patterns h hlen, ← hlen]
  simp

/-! ## Shapes of columns -/

/-- Number of components that a pattern lists. -/
def width : Pattern α → Nat
  | .tuple _ ps => ps.length
  | .record _ fs _ => fs.length
  | _ => 0

/-- Whether a pattern has no components. -/
def isFlat : Pattern α → Bool
  | .tuple _ _ => false
  | .record _ _ _ => false
  | _ => true

/-- What the shape of a column says about a pattern in it. -/
def Shaped : Option Shape → Pattern α → Prop
  | none, p => isFlat p = true
  | some sh, p => Covers sh p ∧ (components sh p).length = (Shape.steps sh).length

/-- Number of components of a shape. -/
def arity : Option Shape → Nat
  | none => 0
  | some sh => (Shape.steps sh).length

/-- The labels of a shape. -/
def labels : Option Shape → List String
  | some (.record ls) => ls
  | _ => []

/-- A flat pattern fits into every shape. -/
theorem Shaped.of_isFlat (h : isFlat p = true) (sh : Option Shape) : Shaped sh p := by
  cases sh with
  | none => exact h
  | some sh =>
    cases sh <;> cases p <;> simp_all [Shaped, Covers, isFlat, components, wilds, Shape.steps]

/-- The ways in which a pattern joins the shape of its column. -/
inductive Joins : Option Shape → Pattern α → Option Shape → Prop
  | tuple {sh : Option Shape} {note : α} {ps : List (Pattern α)} :
      sh = none ∨ sh = some (.tuple ps.length) → Joins sh (.tuple note ps) (some (.tuple ps.length))
  | record {sh : Option Shape} {note : α} {fs : List (String × Pattern α)} {flexible : Bool} :
      (∀ n, sh ≠ some (.tuple n)) → Joins sh (.record note fs flexible)
        (some (.record (labels sh ++ fs.map (·.1)).eraseDups))
  | flat {sh : Option Shape} {p : Pattern α} : isFlat p = true → Joins sh p sh

theorem joins_of_joinShape (h : joinShape sh p = .ok sh') : Joins sh p sh' := by
  cases p with
  | tuple note ps =>
    rcases sh with _ | ⟨n | ls⟩
    · cases h
      exact .tuple (.inl rfl)
    · simp only [joinShape] at h
      split at h
      · rename_i hn
        cases h
        subst hn
        exact .tuple (.inr rfl)
      · cases h
    · cases h
  | record note fs flexible => rcases sh with _ | ⟨n | ls⟩ <;> cases h <;> exact .record nofun
  | _ =>
    have heq : sh = sh' := by cases sh <;> simpa [joinShape] using h
    exact heq ▸ .flat rfl

/-- The shape of a column comes from joining its patterns in turn. -/
@[elab_as_elim]
theorem columnShape_induction {motive : List (Row α) → Option Shape → Prop} (nil : motive [] none)
    (snoc : ∀ rows r sh sh', Joins sh (r.pat col) sh' → motive rows sh → motive (rows ++ [r]) sh')
    {rows : List (Row α)} (h : columnShape rows col = .ok sh) : motive rows sh := by
  induction rows using List.reverseRecOn generalizing sh with
  | nil =>
    cases h
    exact nil
  | append_singleton rows r ih =>
    rw [columnShape, List.foldlM_append] at h
    cases hrows : columnShape rows col with
    | error e =>
      rw [← columnShape, hrows] at h
      cases h
    | ok sh₀ =>
      rw [← columnShape, hrows] at h
      change (joinShape sh₀ (r.pat col) >>= pure) = .ok sh at h
      rw [bind_pure] at h
      exact snoc rows r sh₀ sh (joins_of_joinShape h) (ih hrows)

/-- A pattern adds to the shape of its column what it looks at, and nothing that the
column has gets lost. -/
theorem Joins.shaped (h : Joins sh p sh') :
    Shaped sh' p ∧ ∀ p' : Pattern α, Shaped sh p' → Shaped sh' p' := by
  cases h with
  | tuple hsh =>
    refine ⟨by simp [Shaped, Covers, components, Shape.steps], fun p' hp' => ?_⟩
    rcases hsh with rfl | rfl
    · exact .of_isFlat hp' _
    · exact hp'
  | record hsh =>
    refine ⟨⟨fun l hl => ?_, by simp [components, Shape.steps]⟩, fun p' hp' => ?_⟩
    · exact List.mem_eraseDups.mpr (List.mem_append_right _ hl)
    · rcases sh with _ | ⟨n | ls⟩
      · exact .of_isFlat hp' _
      · exact absurd rfl (hsh n)
      · cases p' with
        | record note' fs' flexible' =>
          refine ⟨fun l hl => ?_, by simp [components, Shape.steps]⟩
          exact List.mem_eraseDups.mpr (List.mem_append_left _ (hp'.1 l hl))
        | _ => exact ⟨trivial, by simp [components, Shape.steps, wilds]⟩
  | flat hp => exact ⟨.of_isFlat hp sh, fun _ hp' => hp'⟩

theorem Joins.arity (h : Joins sh p sh') (hsh : (labels sh).Nodup) :
    arity sh' ≤ Match.arity sh + width p ∧ (labels sh').Nodup := by
  cases h with
  | tuple => exact ⟨by simp [Match.arity, width, Shape.steps], List.nodup_nil⟩
  | @record note fs flexible =>
    have hle := length_eraseDups_le (labels sh ++ fs.map (·.1))
    have hlabels : (labels sh).length ≤ Match.arity sh := by
      rcases sh with _ | ⟨n | ls⟩ <;> simp [labels, Match.arity, Shape.steps]
    rw [List.length_append, List.length_map] at hle
    refine ⟨?_, nodup_eraseDups _⟩
    change (List.map Step.field _).length ≤ _ + fs.length
    rw [List.length_map]
    omega
  | flat => exact ⟨Nat.le_add_right _ _, hsh⟩

/-- The shape of a column covers all its patterns and has no more components than they
list. -/
theorem columnShape_shaped {rows : List (Row α)} (h : columnShape rows col = .ok sh) :
    (∀ r ∈ rows, Shaped sh (r.pat col)) ∧
      arity sh ≤ (rows.map fun r => width (r.pat col)).sum ∧ (labels sh).Nodup := by
  refine columnShape_induction ⟨nofun, Nat.le_refl 0, List.nodup_nil⟩ ?_ h
  intro rows r sh sh' hjoins ⟨hrows, harity, hdistinct⟩
  obtain ⟨hshaped, hmono⟩ := hjoins.shaped
  obtain ⟨harity', hdistinct'⟩ := hjoins.arity hdistinct
  refine ⟨?_, ?_, hdistinct'⟩
  · simpa [or_imp, forall_and, hshaped] using fun r hr => hmono _ (hrows r hr)
  · simp only [List.map_append, List.map_cons, List.map_nil, List.sum_append, List.sum_singleton]
    omega

/-- The shape of a column, if it has one, is that of the values of a type. -/
def Fits (Δ : Signature) (τ : Tree) : Option Shape → Prop
  | none => True
  | some sh => ∃ σs, Δ.Splits τ sh σs

/-- Labels of a record type have types. -/
theorem exists_label_types {fields : List (String × Tree)} {ls : List String}
    (h : ∀ l ∈ ls, l ∈ fields.map (·.1)) :
    ∃ σs, List.Forall₂ (fun l σ => fields.lookup l = some σ) ls σs := by
  induction ls with
  | nil => exact ⟨[], .nil⟩
  | cons l ls ih =>
    obtain ⟨σ, hσ⟩ := LabelMap.exists_lookup (h l List.mem_cons_self)
    obtain ⟨σs, hσs⟩ := ih fun k hk => h k (List.mem_cons_of_mem l hk)
    exact ⟨σ :: σs, .cons hσ hσs⟩

/-- A pattern that may be matched against a type extends the shape of its column to a
shape of the values of the type. -/
theorem joinShape_typed (hsh : Fits Δ τ sh) (hp : Δ.Admits p τ) :
    ∃ sh', joinShape sh p = .ok sh' ∧ Fits Δ τ sh' := by
  cases p with
  | tuple note ps =>
    obtain ⟨σs, hform, hps⟩ := hp
    have hlen : ps.length = σs.length := (Signature.admitsAll_iff.mp hps).length_eq
    cases sh with
    | none => exact ⟨some (.tuple ps.length), rfl, σs, hlen ▸ .tuple hform⟩
    | some sh =>
      obtain ⟨ρs, hsplits⟩ := hsh
      cases hsplits with
      | tuple hform' =>
        rw [hform] at hform'
        cases hform'
        exact ⟨some (.tuple σs.length), by simp [joinShape, hlen], σs, .tuple hform⟩
      | record hform' => simp [hform] at hform'
  | record note fs flexible =>
    obtain ⟨fields, others, hform, -, hfs, -⟩ := hp
    have hlabels : ∀ l ∈ fs.map (·.1), l ∈ fields.map (·.1) := by
      intro l hl
      obtain ⟨e, he, rfl⟩ := List.mem_map.mp hl
      obtain ⟨σ, hσ, -⟩ := Signature.admitsFields_iff.mp hfs e.1 e.2 he
      exact LabelMap.mem_labels_of_lookup hσ
    cases sh with
    | none =>
      obtain ⟨σs, hσs⟩ := exists_label_types fun l hl => hlabels l (List.mem_eraseDups.mp hl)
      exact ⟨some (.record (fs.map (·.1)).eraseDups), rfl, σs, .record hform (nodup_eraseDups _) hσs⟩
    | some sh =>
      obtain ⟨ρs, hsplits⟩ := hsh
      cases hsplits with
      | tuple hform' => simp [hform] at hform'
      | @record fields' others' ls ρs hform' hls hρs =>
        rw [hform] at hform'
        cases hform'
        have hall : ∀ l ∈ (ls ++ fs.map (·.1)).eraseDups, l ∈ fields.map (·.1) := by
          intro l hl
          rcases List.mem_append.mp (List.mem_eraseDups.mp hl) with hl | hl
          · obtain ⟨i, hi, rfl⟩ := List.mem_iff_getElem.mp hl
            exact LabelMap.mem_labels_of_lookup
              ((List.forall₂_iff_get.mp hρs).2 i hi (hρs.length_eq ▸ hi))
          · exact hlabels l hl
        obtain ⟨σs, hσs⟩ := exists_label_types hall
        exact ⟨some (.record (ls ++ fs.map (·.1)).eraseDups), rfl, σs,
          .record hform (nodup_eraseDups _) hσs⟩
  | _ => exact ⟨sh, by cases sh <;> rfl, hsh⟩

/-- A typed column has a shape, which is that of the values of its type. -/
theorem columnShape_typed {rows : List (Row α)} (hrows : ∀ r ∈ rows, Δ.Admits (r.pat col) τ) :
    ∃ sh, columnShape rows col = .ok sh ∧ Fits Δ τ sh := by
  have hfold : ∀ (rows : List (Row α)) (sh : Option Shape), Fits Δ τ sh →
      (∀ r ∈ rows, Δ.Admits (r.pat col) τ) →
      ∃ sh', rows.foldlM (fun sh r => joinShape sh (r.pat col)) sh = .ok sh' ∧ Fits Δ τ sh' := by
    intro rows
    induction rows with
    | nil =>
      intro sh hsh _
      exact ⟨sh, rfl, hsh⟩
    | cons r rows ih =>
      intro sh hsh hrows
      obtain ⟨sh₁, hjoin, hfits⟩ := joinShape_typed hsh (hrows r List.mem_cons_self)
      obtain ⟨sh₂, hrest, hfits₂⟩ :=
        ih sh₁ hfits fun r' hr' => hrows r' (List.mem_cons_of_mem r hr')
      refine ⟨sh₂, ?_, hfits₂⟩
      rw [List.foldlM_cons, hjoin]
      exact hrest
  exact hfold rows none trivial hrows

/-! ## Refining a matrix -/

/-- A matrix stands for another one whose columns are the same values taken further
apart: the values of either turn into values of the other with the same hits. -/
structure Refines (Δ : Signature) (m : Matrix α) (τs : List Tree) (m' : Matrix α)
    (τs' : List Tree) : Prop where
  typed : m'.Typed Δ τs'
  narrow : ∀ vs, Δ.HaveTypes vs τs → ∃ ws, Δ.HaveTypes ws τs' ∧
    hits m'.rows ws = hits m.rows vs ∧
    ∀ root, Located root m.paths vs → Located root m'.paths ws
  inhabited : (∀ τ ∈ τs, Δ.Inhabited τ) → ∀ τ ∈ τs', Δ.Inhabited τ
  widen : (∀ τ ∈ τs, Δ.Inhabited τ) → ∀ ws, Δ.HaveTypes ws τs' →
    ∃ vs, Δ.HaveTypes vs τs ∧ hits m.rows vs = hits m'.rows ws ∧
      ∀ root, Located root m.paths vs → Located root m'.paths ws

theorem Refines.refl {τs : List Tree} (hm : m.Typed Δ τs) : Refines Δ m τs m τs where
  typed := hm
  narrow vs hvs := ⟨vs, hvs, rfl, fun _ h => h⟩
  inhabited h := h
  widen _ ws hws := ⟨ws, hws, rfl, fun _ h => h⟩

theorem Refines.trans {m₁ m₂ m₃ : Matrix α} {τs₁ τs₂ τs₃ : List Tree} (h : Refines Δ m₁ τs₁ m₂ τs₂)
    (h' : Refines Δ m₂ τs₂ m₃ τs₃) : Refines Δ m₁ τs₁ m₃ τs₃ where
  typed := h'.typed
  narrow vs hvs := by
    obtain ⟨ws, hws, hhits, hloc⟩ := h.narrow vs hvs
    obtain ⟨us, hus, hhits', hloc'⟩ := h'.narrow ws hws
    exact ⟨us, hus, hhits'.trans hhits, fun root hroot => hloc' root (hloc root hroot)⟩
  inhabited hτs := h'.inhabited (h.inhabited hτs)
  widen hτs us hus := by
    obtain ⟨ws, hws, hhits, hloc⟩ := h'.widen (h.inhabited hτs) us hus
    obtain ⟨vs, hvs, hhits', hloc'⟩ := h.widen hτs ws hws
    exact ⟨vs, hvs, hhits'.trans hhits, fun root hroot => hloc root (hloc' root hroot)⟩

section Column

variable {Δ : Signature} {m : Matrix α} {before after : List Tree} {τ : Tree} {col : Nat}
  {path : Path} (hm : m.Typed Δ (before ++ τ :: after)) (hcol : before.length = col)
include hm hcol

/-- Binding the names of a column changes no hit. -/
theorem hits_bindAt {us us' : List Val} {v : Val} (hus : us.length = col) :
    hits (m.bindAt col path).rows (us ++ v :: us') = hits m.rows (us ++ v :: us') := by
  rw [Matrix.bindAt, ← List.filterMap_eq_map']
  refine hits_filterMap ?_ ?_
  · intro r hr r' heq
    cases heq
    obtain ⟨ps, qs, hpatterns, hlen, -⟩ := hm.row hcol hr
    refine ⟨rfl, rfl, ?_⟩
    rw [Row.bind_patterns hpatterns hlen, hpatterns, acceptsAll_append (hlen.trans hus.symm),
      acceptsAll_append (hlen.trans hus.symm)]
    simp only [Pattern.acceptsAll, strip_accepts]
  · intro r _ heq
    cases heq

theorem Matrix.Typed.bindAt (path : Path) : (m.bindAt col path).Typed Δ (before ++ τ :: after) := by
  refine ⟨hm.paths, ?_⟩
  intro r' hr'
  obtain ⟨r, hr, rfl⟩ := List.mem_map.mp hr'
  obtain ⟨ps, qs, hpatterns, hlen, hps, hp, hqs⟩ := hm.row hcol hr
  rw [Row.bind_patterns hpatterns hlen]
  exact List.rel_append hps (.cons (strip_admits path hp) hqs)

/-- The patterns of a column whose names are bound are bare. -/
theorem isBare_bindAt {r' : Row α} (hr' : r' ∈ (m.bindAt col path).rows) :
    (r'.pat col).isBare = true := by
  obtain ⟨r, hr, rfl⟩ := List.mem_map.mp hr'
  obtain ⟨ps, qs, hpatterns, hlen, -⟩ := hm.row hcol hr
  rw [Row.bind_pat hpatterns hlen]
  exact strip_isBare path _

/-- Binding the names of a column refines a matrix. -/
theorem Refines.bindAt :
    Refines Δ m (before ++ τ :: after) (m.bindAt col path) (before ++ τ :: after) where
  typed := hm.bindAt hcol path
  narrow vs hvs := by
    obtain ⟨us, v, us', rfl, hlen, -⟩ := forall₂_split (Signature.haveTypes_iff.mp hvs)
    exact ⟨_, hvs, hits_bindAt hm hcol (hlen.trans hcol), fun _ h => h⟩
  inhabited h := h
  widen _ ws hws := by
    obtain ⟨us, v, us', rfl, hlen, -⟩ := forall₂_split (Signature.haveTypes_iff.mp hws)
    exact ⟨_, hws, (hits_bindAt hm hcol (hlen.trans hcol)).symm, fun _ h => h⟩

/-- Expanding a column of bare patterns refines a matrix. -/
theorem Refines.expand (hpath : m.paths[col]? = some path) {sh : Shape} {σs : List Tree}
    (hsplits : Δ.Splits τ sh σs) (hbare : ∀ r ∈ m.rows, (r.pat col).isBare = true)
    (hcovers : ∀ r ∈ m.rows, Covers sh (r.pat col)) :
    Refines Δ m (before ++ τ :: after) (m.expand col path sh) (before ++ σs ++ after) := by
  have hsteps : (Shape.steps sh).length = σs.length := by
    cases hsplits with
    | tuple => simp [Shape.steps]
    | record _ _ hls => simpa [Shape.steps] using hls.length_eq
  have hq : ∀ p : Pattern α, Δ.Admits p τ → ∀ qs, some (components sh p) = some qs →
      Δ.AdmitsAll qs σs := by
    intro p hp qs hqs
    cases hqs
    exact hsplits.admits hp
  have hreads : ∀ {v : Val} {ws : List Val}, Δ.HasType v τ → v.HasParts (Shape.steps sh) ws →
      ∀ r ∈ m.rows, Reads (fun p => some (components sh p)) v ws (r.pat col) := by
    intro v ws hv hparts r hr
    exact hsplits.accepts (hm.admits_pat hcol hr) (hbare r hr) (hcovers r hr) hv hparts
  rw [Matrix.expand_eq]
  refine ⟨hm.replace hcol hpath hsteps hq, ?_, ?_, ?_⟩
  · intro vs hvs
    obtain ⟨us, v, us', rfl, hus, hv, hus'⟩ := haveTypes_column hvs
    have hlen := (Signature.haveTypes_iff.mp hus).length_eq
    obtain ⟨ws, hparts, hws⟩ := hsplits.parts hv
    refine ⟨us ++ ws ++ us', haveTypes_append (haveTypes_append hus hws) hus', ?_, ?_⟩
    · exact hits_replace hm hcol hq hus hws (hreads hv hparts)
    · intro root hroot
      exact located_replace hpath (hlen.trans hcol) hparts hroot
  · intro hτs
    exact inhabited_replace hτs fun σ hσ => hsplits.inhabited (hτs τ (by simp)) hσ
  · intro hτs ws hws
    obtain ⟨front, us', rfl, hfront, hus'⟩ := haveTypes_split hws
    obtain ⟨us, ws, rfl, hus, hws⟩ := haveTypes_split hfront
    obtain ⟨v, hv, hparts⟩ := hsplits.join (hτs τ (by simp)) hws
    have hvus' : Δ.HaveTypes (v :: us') (τ :: after) := ⟨hv, hus'⟩
    have hlen := (Signature.haveTypes_iff.mp hus).length_eq
    exact ⟨us ++ v :: us', haveTypes_append hus hvus',
      (hits_replace hm hcol hq hus hws (hreads hv hparts)).symm,
      fun root hroot => located_replace hpath (hlen.trans hcol) hparts hroot⟩

end Column

/-! ## The normal form -/

/-- What normalization from a column on makes of a matrix, with the columns that it
expands. -/
inductive Expands : Nat → Matrix α → List Finding → Matrix α → Prop
  /-- All columns have been looked at. -/
  | done {col : Nat} {m : Matrix α} : m.paths[col]? = none → Expands col m [] m
  /-- The column has no tuples or records. -/
  | next {col : Nat} {path : Path} {opened : List Finding} {m m' : Matrix α} :
      m.paths[col]? = some path → columnShape (m.bindAt col path).rows col = .ok none →
      Expands (col + 1) (m.bindAt col path) opened m' → Expands col m opened m'
  /-- The column is replaced by its components. -/
  | expand {col : Nat} {path : Path} {sh : Shape} {opened : List Finding} {m m' : Matrix α} :
      m.paths[col]? = some path → columnShape (m.bindAt col path).rows col = .ok (some sh) →
      Expands col ((m.bindAt col path).expand col path sh) opened m' →
      Expands col m (.opened path sh :: opened) m'

/-- What normalization from a column on makes of a matrix. -/
def Normalizes (col : Nat) (m m' : Matrix α) : Prop := ∃ opened, Expands col m opened m'

theorem Matrix.Rect.bindAt (hm : m.Rect) (hpath : m.paths[col]? = some path) :
    (m.bindAt col path).Rect := by
  intro r' hr'
  obtain ⟨r, hr, rfl⟩ := List.mem_map.mp hr'
  obtain ⟨ps, qs, hpatterns, hlen, -⟩ := hm.row hpath hr
  have hrow := hm r hr
  rw [hpatterns] at hrow
  rw [Row.bind_patterns hpatterns hlen]
  simpa [Matrix.bindAt] using hrow

theorem Matrix.Rect.expand (hm : m.Rect) (hpath : m.paths[col]? = some path) {sh : Shape}
    (hsh : columnShape m.rows col = .ok (some sh)) : (m.expand col path sh).Rect := by
  rw [Matrix.expand_eq]
  refine hm.replace hpath ?_
  intro r hr qs hqs
  cases hqs
  exact ((columnShape_shaped hsh).1 r hr).2

/-- Whether a pattern is a wildcard or tests for a tag. -/
def isPlain (p : Pattern α) : Bool := p.isWild || (headTag p).isSome

theorem isPlain_of_isBare (hbare : p.isBare = true) (hflat : isFlat p = true) :
    isPlain p = true := by
  cases p <;> simp_all [Pattern.isBare, isFlat, isPlain, Pattern.isWild, headTag]

/-- Normalization makes the columns plain from left to right. -/
theorem Normalizes.plain (h : Normalizes col m m') (hm : m.Rect)
    (hplain : ∀ r ∈ m.rows, ∀ p ∈ r.patterns.take col, isPlain p = true) :
    m'.Rect ∧ ∀ r ∈ m'.rows, ∀ p ∈ r.patterns, isPlain p = true := by
  obtain ⟨opened, h⟩ := h
  induction h with
  | done hpath =>
    refine ⟨hm, ?_⟩
    intro r hr p hp
    have hlen : r.patterns.length ≤ _ := hm r hr ▸ List.getElem?_eq_none_iff.mp hpath
    exact hplain r hr p (by rwa [List.take_of_length_le hlen])
  | @next col path opened m m' hpath hsh _ ih =>
    refine ih (hm.bindAt hpath) ?_
    intro r' hr' p hp
    have hflat := (columnShape_shaped hsh).1 r' hr'
    obtain ⟨r, hr, rfl⟩ := List.mem_map.mp hr'
    obtain ⟨ps, qs, hpatterns, hlen, -⟩ := hm.row hpath hr
    rw [Row.bind_pat hpatterns hlen] at hflat
    rw [Row.bind_patterns hpatterns hlen, List.append_cons, List.take_left' (by simp [hlen])] at hp
    rcases List.mem_append.mp hp with hp | hp
    · exact hplain r hr p (by rw [hpatterns, List.take_left' hlen]; exact hp)
    · rw [List.mem_singleton.mp hp]
      exact isPlain_of_isBare (strip_isBare path _) hflat
  | @expand col path sh opened m m' hpath hsh _ ih =>
    refine ih ((hm.bindAt hpath).expand hpath hsh) ?_
    intro r' hr' p hp
    obtain ⟨r₁, hr₁, rfl⟩ := List.mem_map.mp hr'
    obtain ⟨r, hr, rfl⟩ := List.mem_map.mp hr₁
    obtain ⟨ps, qs, hpatterns, hlen, -⟩ := hm.row hpath hr
    refine hplain r hr p ?_
    rw [Row.splice, Row.bind_patterns hpatterns hlen, splice_append _ _ _ _ hlen,
      List.append_assoc, List.take_left' hlen] at hp
    rwa [hpatterns, List.take_left' hlen]

theorem Normalizes.plain_pat (h : Normalizes 0 m m') (hm : m.Rect) (col : Nat) :
    ∀ r ∈ m'.rows, isPlain (r.pat col) = true := by
  intro r hr
  by_cases hcol : col < r.patterns.length
  · have hpat : r.pat col = r.patterns[col] := by simp [Row.pat, hcol]
    rw [hpat]
    exact (h.plain hm (by simp)).2 r hr _ (List.getElem_mem hcol)
  · have hpat : r.pat col = .omitted := by simp [Row.pat, Nat.le_of_not_lt hcol]
    rw [hpat]
    rfl

/-- Expanding a column that was bound refines a matrix: its shape was computed from the
patterns, so it is the one that their type has. -/
theorem Matrix.Typed.refines_expand {before after : List Tree} {sh : Shape}
    (hm : m.Typed Δ (before ++ τ :: after)) (hcol : before.length = col)
    (hpath : m.paths[col]? = some path)
    (hsh : columnShape (m.bindAt col path).rows col = .ok (some sh)) :
    ∃ σs, Δ.Splits τ sh σs ∧ Refines Δ m (before ++ τ :: after)
      ((m.bindAt col path).expand col path sh) (before ++ σs ++ after) := by
  have hbound := hm.bindAt hcol path
  obtain ⟨sh', hsh', hfits⟩ := columnShape_typed fun r hr => hbound.admits_pat hcol hr
  cases hsh.symm.trans hsh'
  obtain ⟨σs, hsplits⟩ := hfits
  have hexpand := Refines.expand hbound hcol hpath hsplits
    (fun r hr => isBare_bindAt hm hcol hr) fun r hr => ((columnShape_shaped hsh).1 r hr).1
  exact ⟨σs, hsplits, (Refines.bindAt hm hcol).trans hexpand⟩

/-- Normalization refines a typed matrix. -/
theorem Normalizes.refines {τs : List Tree} (h : Normalizes col m m') (hm : m.Typed Δ τs) :
    ∃ τs', Refines Δ m τs m' τs' := by
  obtain ⟨opened, h⟩ := h
  induction h generalizing τs with
  | done => exact ⟨τs, .refl hm⟩
  | @next col path opened m m' hpath _ _ ih =>
    obtain ⟨before, τ, after, rfl, hcol⟩ := hm.split hpath
    obtain ⟨τs', hrefines⟩ := ih (hm.bindAt hcol path)
    exact ⟨τs', (Refines.bindAt hm hcol).trans hrefines⟩
  | @expand col path sh opened m m' hpath hsh _ ih =>
    obtain ⟨before, τ, after, rfl, hcol⟩ := hm.split hpath
    obtain ⟨σs, -, hexpand⟩ := hm.refines_expand hcol hpath hsh
    obtain ⟨τs', hrefines⟩ := ih hexpand.typed
    exact ⟨τs', hexpand.trans hrefines⟩

end Typecase.Match
