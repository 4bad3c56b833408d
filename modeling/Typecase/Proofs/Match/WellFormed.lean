import Typecase.Proofs.Match.Bindings
import Typecase.Proofs.Match.Columns
set_option autoImplicit false

/-!
# Well formed decision trees

A test of a decision tree has different cases of one kind, and it has a default unless its cases
are all constructors of a closed datatype.  No part of the scrutinee is tested twice on the way
to a leaf, and the value that a constructor carries is looked at only where the constructor was
found.  The trees that the compiler builds are of this form, whether the clauses are well typed
or not.
-/

namespace Typecase

/-! ## Constructors and their datatypes -/

/-- The constructors of a datatype, as matching sees them. -/
def Datatype.members (d : Datatype) : List Con := d.constructors.map (d.con · false)

/-- A constructor belongs to its datatype if that is open, or lists it among its constructors,
which are different. -/
def Con.Belongs (types : Nat → Datatype) (c : Con) : Prop :=
  if (types c.datatype).isOpen then c.siblings = none
  else (types c.datatype).members.Nodup ∧ c ∈ (types c.datatype).members

instance (types : Nat → Datatype) (c : Con) : Decidable (c.Belongs types) :=
  inferInstanceAs (Decidable (if (types c.datatype).isOpen then c.siblings = none else _ ∧ _))

theorem Datatype.of_mem_members {d : Datatype} {c : Con} (h : c ∈ d.members)
    (hclosed : d.isOpen = false) :
    c.datatype = d.id ∧ ∃ all, c.siblings = some all ∧ all.length = d.members.length := by
  obtain ⟨k, -, rfl⟩ := List.mem_map.mp h
  exact ⟨rfl, _, if_neg (by simp [hclosed]), by simp [members]⟩

namespace Pattern

variable {α : Type}

mutual

/-- The constructors of a pattern. -/
def cons : Pattern α → List Con
  | .wildcard _ => []
  | .var _ _ => []
  | .literal _ _ => []
  | .con _ c none => [c]
  | .con _ c (some p) => c :: cons p
  | .tuple _ ps => consAll ps
  | .record _ fs _ => consFields fs
  | .layered _ _ p => cons p
  | .omitted => []

def consAll : List (Pattern α) → List Con
  | [] => []
  | p :: ps => cons p ++ consAll ps

/-- The constructors of the fields of a record pattern. -/
def consFields : List (String × Pattern α) → List Con
  | [] => []
  | (_, p) :: fs => cons p ++ consFields fs

end

theorem mem_consAll {ps : List (Pattern α)} {p : Pattern α} (hp : p ∈ ps) {c : Con}
    (hc : c ∈ p.cons) : c ∈ consAll ps := by
  induction ps with
  | nil => cases hp
  | cons q ps ih =>
    rcases List.mem_cons.mp hp with rfl | hp
    · exact List.mem_append_left _ hc
    · exact List.mem_append_right _ (ih hp)

theorem mem_consFields {fs : List (String × Pattern α)} {l : String} {p : Pattern α}
    (hp : (l, p) ∈ fs) {c : Con} (hc : c ∈ p.cons) : c ∈ consFields fs := by
  induction fs with
  | nil => cases hp
  | cons f fs ih =>
    rcases List.mem_cons.mp hp with rfl | hp
    · exact List.mem_append_left _ hc
    · exact List.mem_append_right _ (ih hp)

end Pattern

/-! ## Trees -/

/-- The tests on the way to a node of a decision tree, each with the tag that was found or, on the
default, without a tag. -/
abbrev Branch := List (Path × Option Tag)

/-- A part of the scrutinee is open on a branch if every constructor on the way to it was found. -/
def Path.Open (branch : Branch) (p : Path) : Prop :=
  ∀ q c rest, p = q ++ .arg c :: rest → (q, some (.con c)) ∈ branch

namespace Decision

/-- All literals of one kind, or all constructors of one datatype. -/
def Uniform (tags : List Tag) : Prop :=
  (∃ kind, ∀ tag ∈ tags, ∃ l : Literal, tag = .literal l ∧ l.kind = kind) ∨
    ∃ n, ∀ tag ∈ tags, ∃ c : Con, tag = .con c ∧ c.datatype = n

/-- The tags are exactly all constructors of a closed datatype. -/
def Exhausts (types : Nat → Datatype) (tags : List Tag) : Prop :=
  ∃ n, (types n).id = n ∧ (types n).isOpen = false ∧
    ∀ tag, tag ∈ tags ↔ tag ∈ (types n).members.map Tag.con

/-- The tags of one test. -/
structure IsTest (types : Nat → Datatype) (tags : List Tag) (default : Option Decision) : Prop where
  nonempty : tags ≠ []
  distinct : tags.Nodup
  uniform : Uniform tags
  complete : default = none ↔ Exhausts types tags

/-- A well formed tree for clauses of which `guards` says whether they have a guard, below the
tests of a branch. -/
inductive WellFormed (types : Nat → Datatype) (guards : List Bool) : Branch → Decision → Prop
  | fail {branch : Branch} : WellFormed types guards branch .fail
  | leaf {branch : Branch} {clause : Nat} {bindings : List (String × Path)}
      {fallback : Option Decision} : guards[clause]? = some fallback.isSome →
      (∀ b ∈ bindings, Path.Open branch b.2) →
      (∀ d ∈ fallback, WellFormed types guards branch d) →
      WellFormed types guards branch (.leaf clause bindings fallback)
  | switch {branch : Branch} {path : Path} {cases : List (Tag × Decision)}
      {default : Option Decision} : IsTest types (cases.map (·.1)) default →
      path ∉ branch.map (·.1) → Path.Open branch path →
      (∀ e ∈ cases, WellFormed types guards ((path, some e.1) :: branch) e.2) →
      (∀ d ∈ default, WellFormed types guards ((path, none) :: branch) d) →
      WellFormed types guards branch (.switch path cases default)

end Decision

namespace Match

open Decision

variable {α : Type} {types : Nat → Datatype} {guards : List Bool} {branch branch' : Branch}
  {c : Con} {p : Pattern α} {tags : List Tag} {clauses : List (Clause α)}

/-! ## Open parts -/

theorem open_nil : Path.Open branch [] := by
  intro q c rest h
  cases q <;> cases h

theorem open_mono {p : Path} (h : Path.Open branch p) (hle : ∀ e ∈ branch, e ∈ branch') :
    Path.Open branch' p :=
  fun q c rest heq => hle _ (h q c rest heq)

/-- A part is open one step further if the step is not to the argument of a constructor that was
not found. -/
theorem open_snoc {p : Path} (h : Path.Open branch p) {step : Step}
    (hstep : ∀ c, step = .arg c → (p, some (.con c)) ∈ branch) :
    Path.Open branch (p ++ [step]) := by
  intro q c rest heq
  rcases List.eq_nil_or_concat rest with rfl | ⟨rest, last, rfl⟩
  · obtain ⟨rfl, hlast⟩ := List.append_inj' heq rfl
    exact hstep c (List.cons.inj hlast).1
  · rw [List.concat_eq_append, ← List.cons_append, ← List.append_assoc] at heq
    exact h q c rest (List.append_inj' heq rfl).1

/-! ## The tags of a test -/

theorem Branches.uniform {m : Matrix α} {col : Nat} {path : Path} (h : Branches m col path tags) :
    Uniform tags := by
  have htags := h.tags
  unfold columnTags at htags
  cases hall : m.rows.filterMap fun r => headTag (r.pat col) with
  | nil =>
    rw [hall] at htags
    cases htags
    exact .inr ⟨0, by simp⟩
  | cons first others =>
    rw [hall] at htags
    simp only at htags
    split at htags
    · rename_i hcompatible
      cases htags
      have hcompatible : ∀ tag ∈ (first :: others).eraseDups, first.compatible tag = true :=
        fun tag htag => List.all_eq_true.mp hcompatible tag (List.mem_eraseDups.mp htag)
      cases first with
      | literal l =>
        refine .inl ⟨l.kind, fun tag htag => ?_⟩
        have hkind := hcompatible tag htag
        cases tag with
        | literal k => exact ⟨k, rfl, (beq_iff_eq.mp hkind).symm⟩
        | con c => cases hkind
      | con c =>
        refine .inr ⟨c.datatype, fun tag htag => ?_⟩
        have hdatatype := hcompatible tag htag
        cases tag with
        | literal k => cases hdatatype
        | con d => exact ⟨d, rfl, (beq_iff_eq.mp hdatatype).symm⟩
    · cases htags

theorem con_injective : Function.Injective Tag.con := fun _ _ h => Tag.con.inj h

/-- The compiler counts the tags to see whether they are all constructors of a datatype. -/
theorem isComplete_iff_exhausts (hne : tags ≠ []) (hnodup : tags.Nodup) (huniform : Uniform tags)
    (hbelongs : ∀ c, .con c ∈ tags → c.Belongs types) :
    isComplete tags = true ↔ Exhausts types tags := by
  obtain ⟨first, rest, rfl⟩ := List.exists_cons_of_ne_nil hne
  cases first with
  | literal l =>
    have hnot : ¬ Exhausts types (.literal l :: rest) := by
      rintro ⟨n, -, -, hmem⟩
      obtain ⟨c, -, hc⟩ := List.mem_map.mp ((hmem (.literal l)).mp List.mem_cons_self)
      cases hc
    exact iff_of_false (by simp [isComplete]) hnot
  | con c =>
    -- a datatype that has all of the tags is that of the first one
    have hown : ∀ {n}, (types n).id = n → (types n).isOpen = false →
        (∀ tag, tag ∈ Tag.con c :: rest ↔ tag ∈ (types n).members.map Tag.con) →
        n = c.datatype := by
      intro n hid hclosed hmem
      obtain ⟨c', hc', heq⟩ := List.mem_map.mp ((hmem (.con c)).mp List.mem_cons_self)
      cases heq
      exact hid.symm.trans (Datatype.of_mem_members hc' hclosed).1.symm
    have hc := hbelongs c List.mem_cons_self
    unfold Con.Belongs at hc
    split at hc
    · rename_i hopen
      refine iff_of_false (by simp [isComplete, hc]) ?_
      rintro ⟨n, hid, hclosed, hmem⟩
      rw [hown hid hclosed hmem, hopen] at hclosed
      cases hclosed
    · rename_i hclosed
      have hclosed : (types c.datatype).isOpen = false := by simpa using hclosed
      obtain ⟨hid, all, hall, hlength⟩ := Datatype.of_mem_members hc.2 hclosed
      have hmembers : ((types c.datatype).members.map Tag.con).Nodup :=
        hc.1.map con_injective
      have hsubset : Tag.con c :: rest ⊆ (types c.datatype).members.map Tag.con := by
        rcases huniform with ⟨kind, hkind⟩ | ⟨n, hn⟩
        · obtain ⟨l, hl, -⟩ := hkind (.con c) List.mem_cons_self
          cases hl
        · obtain ⟨c₀, hc₀, rfl⟩ := hn (.con c) List.mem_cons_self
          cases hc₀
          intro tag htag
          obtain ⟨d, rfl, hd⟩ := hn tag htag
          have hbelong := hbelongs d htag
          rw [Con.Belongs, hd, if_neg (by simp [hclosed])] at hbelong
          exact List.mem_map_of_mem hbelong.2
      have hcomplete : isComplete (Tag.con c :: rest) = true ↔
          ((types c.datatype).members.map Tag.con).length = (Tag.con c :: rest).length := by
        simp [isComplete, hall, hlength]
      rw [hcomplete]
      constructor
      · intro hlen
        have hperm := (hnodup.subperm hsubset).perm_of_length_le (Nat.le_of_eq hlen)
        exact ⟨c.datatype, hid.symm, hclosed, fun _ => hperm.mem_iff⟩
      · rintro ⟨n, hid', hclosed', hmem⟩
        rw [hown hid' hclosed' hmem] at hmem
        exact ((List.perm_ext_iff_of_nodup hnodup hmembers).mpr hmem).length_eq.symm

/-! ## What the compiler keeps -/

/-- On a branch of the tree, the columns of the matrix belong to parts that stand apart, are open,
and have no tested part at or below them. -/
structure Sited (types : Nat → Datatype) (guards : List Bool) (branch : Branch)
    (m : Matrix α) : Prop where
  rect : m.Rect
  apart : m.paths.Pairwise Apart
  untested : ∀ e ∈ branch, ¬ Below m.paths e.1
  columns : ∀ p ∈ m.paths, Path.Open branch p
  bindings : ∀ r ∈ m.rows, ∀ b ∈ r.bindings, Path.Open branch b.2
  guards : ∀ r ∈ m.rows, guards[r.clause]? = some r.guarded
  cons : ∀ r ∈ m.rows, ∀ p ∈ r.patterns, ∀ c ∈ p.cons, c.Belongs types

variable {m m' : Matrix α} {col : Nat} {path : Path}

theorem cons_strip (path : Path) (hc : c ∈ (Row.strip path p).2.cons) : c ∈ p.cons := by
  fun_induction Row.strip path p with
  | case1 => cases hc
  | case2 note x p bindings q heq ih =>
    rw [heq] at ih
    exact ih hc
  | case3 => exact hc

theorem cons_wilds {n : Nat} (hp : p ∈ (wilds n : List (Pattern α))) : c ∉ p.cons := by
  rw [List.eq_of_mem_replicate hp]
  exact List.not_mem_nil

theorem cons_components {sh : Shape} {q : Pattern α} (hq : q ∈ components sh p) (hc : c ∈ q.cons) :
    c ∈ p.cons := by
  cases sh with
  | tuple n =>
    cases p with
    | tuple note ps => exact Pattern.mem_consAll hq hc
    | _ => exact absurd hc (cons_wilds hq)
  | record ls =>
    cases p with
    | record note fs flexible =>
      obtain ⟨l, -, rfl⟩ := List.mem_map.mp hq
      cases hlookup : fs.reverse.lookup l with
      | none =>
        rw [hlookup] at hc
        cases hc
      | some q =>
        rw [hlookup] at hc
        have hmem : (l, q) ∈ fs := List.mem_reverse.mp (LabelMap.mem_of_lookup hlookup)
        exact Pattern.mem_consFields hmem hc
    | _ => exact absurd hc (cons_wilds hq)

theorem cons_carried {tag : Tag} {q : Pattern α} (hq : q ∈ carried tag p) (hc : c ∈ q.cons) :
    c ∈ p.cons := by
  cases p with
  | con note d arg =>
    cases arg with
    | none => exact absurd hc (cons_wilds hq)
    | some p =>
      simp only [carried] at hq
      split at hq
      · rw [List.mem_singleton.mp hq] at hc
        exact List.mem_cons_of_mem d hc
      · cases hq
  | _ => exact absurd hc (cons_wilds hq)

section Sited

variable (h : Sited types guards branch m) (hpath : m.paths[col]? = some path)
include h hpath

theorem Sited.belongs {r : Row α} (hr : r ∈ m.rows) (hc : c ∈ (r.pat col).cons) :
    c.Belongs types := by
  obtain ⟨ps, qs, hpatterns, -⟩ := h.rect.row hpath hr
  exact h.cons r hr _ (by rw [hpatterns]; simp) c hc

theorem Sited.bindAt :
    Sited types guards branch (m.bindAt col path) := by
  refine ⟨h.rect.bindAt hpath, h.apart, h.untested, h.columns, ?_, ?_, ?_⟩
  · intro r' hr' b hb
    obtain ⟨r, hr, rfl⟩ := List.mem_map.mp hr'
    rcases List.mem_append.mp (show b ∈ r.bindings ++ (Row.strip path (r.pat col)).1 from hb)
      with hb | hb
    · exact h.bindings r hr b hb
    · rw [strip_paths path _ b hb]
      exact h.columns path (List.mem_of_getElem? hpath)
  · intro r' hr'
    obtain ⟨r, hr, rfl⟩ := List.mem_map.mp hr'
    exact h.guards r hr
  · intro r' hr' p hp c hc
    obtain ⟨r, hr, rfl⟩ := List.mem_map.mp hr'
    obtain ⟨ps, qs, hpatterns, hlen, -⟩ := h.rect.row hpath hr
    have hrow := h.cons r hr
    rw [hpatterns] at hrow
    rw [Row.bind_patterns hpatterns hlen, List.mem_append, List.mem_cons] at hp
    rcases hp with hp | rfl | hp
    · exact hrow p (by simp [hp]) c hc
    · exact h.belongs hpath hr (cons_strip path hc)
    · exact hrow p (by simp [hp]) c hc

/-- Replacing a column, on a branch that may have gained a test of this column. -/
theorem Sited.replace {steps : List Step} {q : Pattern α → Option (List (Pattern α))}
    (hkept : ∀ e ∈ branch, e ∈ branch') (hgained : ∀ e ∈ branch', e ∈ branch ∨ e.1 = path)
    (hnodup : (steps.map Step.text).Nodup)
    (hopen : ∀ step ∈ steps, ∀ c, step = .arg c → (path, some (.con c)) ∈ branch')
    (hlen : ∀ r ∈ m.rows, ∀ qs, q (r.pat col) = some qs → qs.length = steps.length)
    (hq : ∀ p qs, q p = some qs → ∀ p' ∈ qs, ∀ c ∈ p'.cons, c ∈ p.cons) :
    Sited types guards branch' (m.replace col path steps q) := by
  have hmem := List.mem_of_getElem? hpath
  refine ⟨h.rect.replace hpath hlen, apart_replace h.apart hpath hnodup, ?_, ?_, ?_, ?_, ?_⟩
  · intro e he hbelow
    rcases hgained e he with he | he
    · exact h.untested e he (below_replace hpath hbelow)
    · exact not_below_replace h.apart hpath (he ▸ hbelow)
  · intro p hp
    rcases mem_replace_paths hpath hp with hp | ⟨step, hstep, rfl⟩
    · exact open_mono (h.columns p hp) hkept
    · exact open_snoc (open_mono (h.columns path hmem) hkept) (hopen step hstep)
  all_goals
    intro r' hr'
    obtain ⟨r, hr, heq⟩ := List.mem_filterMap.mp hr'
    obtain ⟨qs, hqs, rfl⟩ := Option.map_eq_some_iff.mp heq
  · exact fun b hb => open_mono (h.bindings r hr b hb) hkept
  · exact h.guards r hr
  · intro p hp c hc
    rcases mem_splice_patterns h.rect hpath hr hp with hp | hp
    · exact h.cons r hr p hp c hc
    · exact h.belongs hpath hr (hq _ qs hqs p hp c hc)

theorem Sited.expand {sh : Shape} (hsh : columnShape m.rows col = .ok (some sh)) :
    Sited types guards branch (m.expand col path sh) := by
  obtain ⟨hshaped, -, hdistinct⟩ := columnShape_shaped hsh
  rw [Matrix.expand_eq]
  refine h.replace hpath (fun _ he => he) (fun _ he => .inl he) (nodup_steps hdistinct) ?_ ?_ ?_
  · rintro step hstep c rfl
    cases sh <;> simp [Shape.steps] at hstep
  · intro r hr qs hqs
    cases hqs
    exact (hshaped r hr).2
  · intro p qs hqs p' hp' c hc
    cases hqs
    exact cons_components hp' hc

end Sited

theorem Normalizes.sited (h : Normalizes col m m') (hm : Sited types guards branch m) :
    Sited types guards branch m' := by
  obtain ⟨opened, h⟩ := h
  induction h with
  | done _ => exact hm
  | next hpath _ _ ih => exact ih (hm.bindAt hpath)
  | expand hpath hsh _ ih => exact ih ((hm.bindAt hpath).expand hpath hsh)

theorem Sited.rest (h : Sited types guards branch m) {first : Row α} {rest : List (Row α)}
    (hrows : m.rows = first :: rest) :
    Sited types guards branch ({ m with rows := rest } : Matrix α) := by
  have hmem : ∀ r ∈ rest, r ∈ m.rows := fun r hr => hrows ▸ List.mem_cons_of_mem first hr
  exact ⟨fun r hr => h.rect r (hmem r hr), h.apart, h.untested, h.columns,
    fun r hr => h.bindings r (hmem r hr), fun r hr => h.guards r (hmem r hr),
    fun r hr => h.cons r (hmem r hr)⟩

theorem Sited.specialize (h : Sited types guards branch m) (hpath : m.paths[col]? = some path)
    (tag : Tag) : Sited types guards ((path, some tag) :: branch) (m.specialize col path tag) := by
  rw [Matrix.specialize_eq]
  refine h.replace hpath (fun _ he => List.mem_cons_of_mem _ he) ?_ ?_ ?_ ?_ ?_
  · intro e he
    rcases List.mem_cons.mp he with rfl | he
    · exact .inr rfl
    · exact .inl he
  · cases tag with
    | con c => cases hc : c.hasArg <;> simp [Tag.steps, hc]
    | literal l => simp [Tag.steps]
  · rintro step hstep c rfl
    cases tag with
    | con d =>
      simp only [Tag.steps] at hstep
      split at hstep
      · cases List.mem_singleton.mp hstep
        exact List.mem_cons_self
      · cases hstep
    | literal l => cases hstep
  · intro r _ qs hqs
    unfold specialized at hqs
    split at hqs
    · cases hqs
      exact length_carried tag _
    · cases hqs
  · intro p qs hqs p' hp' c hc
    unfold specialized at hqs
    split at hqs
    · cases hqs
      exact cons_carried hp' hc
    · cases hqs

theorem Sited.default (h : Sited types guards branch m) (hpath : m.paths[col]? = some path) :
    Sited types guards ((path, none) :: branch) (m.default col) := by
  have hnil : ∀ (p : Pattern α) qs, unspecialized p = some qs → qs = [] := by
    intro p qs hqs
    unfold unspecialized at hqs
    split at hqs <;> simp_all
  rw [Matrix.default_eq m col path]
  refine h.replace hpath (fun _ he => List.mem_cons_of_mem _ he) ?_ (by simp) (by simp) ?_ ?_
  · intro e he
    rcases List.mem_cons.mp he with rfl | he
    · exact .inr rfl
    · exact .inl he
  · exact fun r _ qs hqs => congrArg List.length (hnil _ qs hqs)
  · intro p qs hqs p' hp'
    rw [hnil p qs hqs] at hp'
    cases hp'

theorem belongs_headTag (h : headTag p = some (.con c)) : c ∈ p.cons := by
  cases p with
  | con note d arg =>
    cases h
    cases arg <;> exact List.mem_cons_self
  | _ => cases h

/-- The tags that the compiler tests for make a test. -/
theorem Sited.isTest (h : Sited types guards branch m)
    (hplain : ∀ r ∈ m.rows, isPlain (r.pat col) = true) (hbranches : Branches m col path tags)
    {default : Option Decision} (hdefault : default = none ↔ isComplete tags = true) :
    IsTest types tags default := by
  have hne := hbranches.tags_ne_nil hplain
  refine ⟨hne, hbranches.tags_nodup, hbranches.uniform, hdefault.trans ?_⟩
  refine isComplete_iff_exhausts hne hbranches.tags_nodup hbranches.uniform fun c hc => ?_
  obtain ⟨r, hr, htag⟩ := (mem_columnTags hbranches.tags).mp hc
  exact h.belongs hbranches.path hr (belongs_headTag htag)

theorem Sited.path_untested (h : Sited types guards branch m) (hpath : m.paths[col]? = some path) :
    path ∉ branch.map (·.1) := by
  intro hmem
  obtain ⟨e, he, rfl⟩ := List.mem_map.mp hmem
  exact h.untested e he (below_of_mem (List.mem_of_getElem? hpath))

/-- The tree of a matrix is well formed below the tests that led to the matrix. -/
theorem Compiled.wellFormed {d : Decision} (h : Compiled m d) (hm : Sited types guards branch m) :
    d.WellFormed types guards branch := by
  induction h generalizing branch with
  | fail _ => exact .fail
  | leaf hnormal hrows _ hfree =>
    have hm' := hnormal.sited hm
    have hfirst := hrows ▸ List.mem_cons_self
    refine .leaf ?_ (hm'.bindings _ hfirst) (by simp)
    rw [hm'.guards _ hfirst, hfree]
    rfl
  | guarded hnormal hrows _ hguarded _ ih =>
    have hm' := hnormal.sited hm
    have hfirst := hrows ▸ List.mem_cons_self
    refine .leaf ?_ (hm'.bindings _ hfirst) ?_
    · rw [hm'.guards _ hfirst, hguarded]
      rfl
    · intro d hd
      cases hd
      exact ih (hm'.rest hrows)
  | complete hnormal hbranches hcomplete hmap _ ih =>
    have hm' := hnormal.sited hm
    refine .switch ?_ (hm'.path_untested hbranches.path)
      (hm'.columns _ (List.mem_of_getElem? hbranches.path)) ?_ (by simp)
    · rw [hmap]
      exact hm'.isTest (hnormal.plain_pat hm.rect _) hbranches (by simp [hcomplete])
    · exact fun e he => ih e he (hm'.specialize hbranches.path e.1)
  | incomplete hnormal hbranches hincomplete hmap _ _ ih ihdefault =>
    have hm' := hnormal.sited hm
    refine .switch ?_ (hm'.path_untested hbranches.path)
      (hm'.columns _ (List.mem_of_getElem? hbranches.path)) ?_ ?_
    · rw [hmap]
      exact hm'.isTest (hnormal.plain_pat hm.rect _) hbranches (by simp [hincomplete])
    · exact fun e he => ih e he (hm'.specialize hbranches.path e.1)
    · intro d hd
      cases hd
      exact ihdefault (hm'.default hbranches.path)

/-! ## Clauses -/

theorem sited_ofClauses (hcons : ∀ cl ∈ clauses, ∀ c ∈ cl.pattern.cons, c.Belongs types) :
    Sited types (clauses.map (·.guarded)) [] (Matrix.ofClauses clauses) := by
  refine ⟨rect_ofClauses clauses, by simp [Matrix.ofClauses], by simp, ?_, ?_, ?_, ?_⟩
  · intro p hp
    rw [List.mem_singleton.mp hp]
    exact open_nil
  · intro r hr b hb
    obtain ⟨e, -, rfl⟩ := List.mem_map.mp hr
    cases hb
  · intro r hr
    obtain ⟨e, he, rfl⟩ := List.mem_map.mp hr
    simp [List.getElem?_map, List.mem_zipIdx_iff_getElem?.mp he]
  · intro r hr p hp c hc
    obtain ⟨cl, hcl, hpatterns⟩ := mem_ofClauses hr
    rw [hpatterns, List.mem_singleton] at hp
    exact hcons cl hcl c (hp ▸ hc)

/-- What is accepted has clauses, a type, and a pattern in each clause. -/
theorem accepted_of_compile {s : Store} {scrutinee : Option Ty} {r : Result}
    (h : compile s clauses scrutinee = .ok r) :
    clauses ≠ [] ∧ (∃ t, scrutinee = some t) ∧ ∀ c ∈ clauses, c.pattern ≠ .omitted := by
  have hne : clauses ≠ [] := by
    rintro rfl
    cases scrutinee <;> cases h
  have hempty : clauses.isEmpty = false := by simpa using hne
  unfold Match.compile at h
  simp only [hempty, Bool.false_eq_true, if_false] at h
  cases scrutinee with
  | none => cases h
  | some t =>
    refine ⟨hne, ⟨t, rfl⟩, fun c hc homitted => ?_⟩
    dsimp only at h
    split at h
    · cases h
    · rename_i hnone
      have hfind := List.findIdx?_eq_none_iff.mp (Option.eq_none_iff_forall_ne_some.mpr hnone) c hc
      rw [homitted] at hfind
      cases hfind

/-- Clauses that are accepted are compiled to the tree of their matrix. -/
theorem compiled_of_compile {s : Store} {scrutinee : Option Ty} {r : Result}
    (h : compile s clauses scrutinee = .ok r) : Compiled (Matrix.ofClauses clauses) r.tree := by
  obtain ⟨hne, ⟨t, rfl⟩, hgiven⟩ := accepted_of_compile h
  obtain ⟨st, -, hst⟩ := compile_eq s t hne hgiven
  rw [hst] at h
  cases hrun : compileAt ((Matrix.ofClauses clauses).size + clauses.length + 1) []
      (Matrix.ofClauses clauses) st with
  | error e =>
    rw [hrun] at h
    cases h
  | ok e =>
    rw [hrun] at h
    cases h
    exact compileAt_compiled (rect_ofClauses clauses) (weight_ofClauses_lt clauses) hrun

/-- Whatever clauses the compiler accepts, as long as their constructors belong to their
datatypes, it builds a well formed tree: every test has different cases of one kind, and a default
unless the cases are all constructors of a closed datatype; no part of the scrutinee is tested
twice on a branch; the value that a constructor carries is tested or bound only below the case of
the constructor; and exactly the leaves of guarded clauses have a fallback. -/
theorem compile_wellFormed (types : Nat → Datatype) (s : Store) (clauses : List (Clause α))
    (scrutinee : Option Ty) (r : Result)
    (hcons : ∀ cl ∈ clauses, ∀ c ∈ cl.pattern.cons, c.Belongs types)
    (h : compile s clauses scrutinee = .ok r) :
    r.tree.WellFormed types (clauses.map (·.guarded)) [] :=
  (compiled_of_compile h).wellFormed (sited_ofClauses hcons)

/-- The clauses `SOME 1 if …`, `SOME _`, `SOME 2` and `NONE` are accepted. -/
theorem compile_wellFormed_option :
    (∀ cl ∈ optionClauses, ∀ c ∈ cl.pattern.cons, c.Belongs fun _ => optionDatatype) ∧
      ∃ r, compile optionSignature.store optionClauses (some intOption) = .ok r ∧
        r.tree.WellFormed (fun _ => optionDatatype) [true, false, false, false] [] := by
  have hcons : ∀ cl ∈ optionClauses, ∀ c ∈ cl.pattern.cons,
      c.Belongs fun _ => optionDatatype := by decide
  obtain ⟨r, hr, -⟩ := optionClauses_wellTyped.describes (by decide) optionSignature.store intOption
  exact ⟨hcons, r, hr, compile_wellFormed _ _ _ _ r hcons hr⟩

end Match

end Typecase
