import Typecase.Proofs.Dependency.Components
import Typecase.Proofs.Elaborate.Declared
import Typecase.Proofs.Elaborate.Generalization
set_option autoImplicit false

/-!
# What declarations export

A declaration adds entries to the current frame and leaves all frames around it alone.  The
identifiers that it adds can be read off the typed declaration, and the type names off the source.
What comes before the `in` of a `local` adds nothing.

If a declaration fails, the names that it would have bound are read off the source, with the
constructors that are in scope before it.  A declaration that succeeds binds no other names, and it
binds all of them but for constructors from before the `in` of a `local`: in the body they are no
variables.
-/

namespace Typecase

/-! ## Entries that are added to a frame -/

/-- No name is bound twice in a frame. -/
structure Frame.Distinct (f : Frame) : Prop where
  values : (f.values.map (·.1)).Nodup
  types : (f.types.map (·.1)).Nodup

namespace Env

/-- `env'` is `env` with more entries in the current frame: the identifiers `added`, latest first,
and entries for the type names `names`. -/
structure Extended (added : LabelMap ValueEntry) (names : List String) (env env' : Env) : Prop where
  outer : env'.outer = env.outer
  values : ∀ x, env'.current.values.lookup x = (added.lookup x).or (env.current.values.lookup x)
  types : ∀ x, x ∉ names → env'.current.types.lookup x = env.current.types.lookup x
  named : ∀ x ∈ names, (env'.current.types.lookup x).isSome = true
  distinct : env.current.Distinct → env'.current.Distinct

variable {added added' : LabelMap ValueEntry} {names names' : List String}
  {env env' env'' inner other : Env}

theorem Extended.refl (env : Env) : Extended [] [] env env where
  outer := rfl
  values := fun _ => rfl
  types := fun _ _ => rfl
  named := nofun
  distinct := fun h => h

section Extended

variable (h : Extended added names env env')
include h

theorem Extended.trans (h' : Extended added' names' env' env'') :
    Extended (added' ++ added) (names ++ names') env env'' where
  outer := h'.outer.trans h.outer
  values := by
    intro x
    rw [h'.values, h.values, List.lookup_append, Option.or_assoc]
  types := by
    intro x hx
    obtain ⟨hfirst, hlast⟩ := not_or.mp (List.mem_append.not.mp hx)
    rw [h'.types x hlast, h.types x hfirst]
  named := by
    intro x hx
    by_cases hlast : x ∈ names'
    · exact h'.named x hlast
    · rw [h'.types x hlast]
      exact h.named x ((List.mem_append.mp hx).resolve_right hlast)
  distinct := fun hd => h'.distinct (h.distinct hd)

/-- The order of the added identifiers matters only as far as they are looked up. -/
theorem Extended.congr (hadded : ∀ x, added'.lookup x = added.lookup x) :
    Extended added' names env env' :=
  { h with values := fun x => by rw [hadded, h.values] }

theorem Extended.value? (x : String) : env'.value? x = (added.lookup x).or (env.value? x) := by
  rw [value?_eq, h.values, h.outer, Option.or_assoc, ← value?_eq]

theorem Extended.type? {x : String} (hx : x ∉ names) : env'.type? x = env.type? x := by
  rw [type?_eq, h.types x hx, h.outer, ← type?_eq]

end Extended

theorem extended_bindValue (env : Env) (name : String) (v : ValueEntry) :
    Extended [(name, v)] [] env (env.bindValue name v) where
  outer := rfl
  values := by
    intro x
    show (LabelMap.set env.current.values name v).lookup x = _
    rw [LabelMap.lookup_set, List.lookup_cons]
    by_cases hx : x = name
    · simp [hx]
    · simp [hx, beq_false_of_ne hx]
  types := fun _ _ => rfl
  named := nofun
  distinct := fun hd => ⟨LabelMap.nodup_set hd.values name v, hd.types⟩

theorem extended_bindType (env : Env) (name : String) (t : TypeEntry) :
    Extended [] [name] env (env.bindType name t) where
  outer := rfl
  values := fun _ => rfl
  types := by
    intro x hx
    show (LabelMap.set env.current.types name t).lookup x = _
    rw [LabelMap.lookup_set, if_neg (fun heq => hx (List.mem_singleton.mpr heq))]
  named := by
    intro x hx
    show ((LabelMap.set env.current.types name t).lookup x).isSome = true
    rw [LabelMap.lookup_set, if_pos (List.mem_singleton.mp hx)]
    rfl
  distinct := fun hd => ⟨hd.values, LabelMap.nodup_set hd.types name t⟩

/-- Entries are added one after the other. -/
theorem extended_foldl {α : Type} {f : Env → α → Env} {vs : α → LabelMap ValueEntry}
    {ts : α → List String} (hf : ∀ env a, Extended (vs a) (ts a) env (f env a)) (as : List α)
    (env : Env) : Extended (as.reverse.flatMap vs) (as.flatMap ts) env (as.foldl f env) := by
  induction as generalizing env with
  | nil => exact .refl env
  | cons a as ih =>
    rw [List.reverse_cons, List.flatMap_append, List.flatMap_singleton, List.flatMap_cons]
    exact (hf env a).trans (ih _)

/-- Identifiers are bound one after the other. -/
theorem extended_binds {α : Type} {f : Env → α → Env} (entry : α → String × ValueEntry)
    (hf : ∀ env a, f env a = env.bindValue (entry a).1 (entry a).2) (as : List α) (env : Env) :
    Extended (as.reverse.map entry) [] env (as.foldl f env) := by
  have hstep : ∀ env a, Extended [entry a] [] env (f env a) := by
    intro env a
    rw [hf]
    exact extended_bindValue env _ _
  have hfold := extended_foldl hstep as env
  rwa [← List.map_eq_flatMap, List.flatMap_eq_nil_iff.mpr fun _ _ => rfl] at hfold

/-- Only what was added inside a new frame is taken over from it. -/
theorem Extended.adopt (h : Extended added names inner.scope other) (env : Env) :
    Extended added names env (env.adopt other) := by
  have hdistinct : other.current.Distinct := h.distinct ⟨List.nodup_nil, List.nodup_nil⟩
  have hnew : ∀ x, other.current.values.lookup x = added.lookup x := by
    intro x
    rw [h.values]
    exact Option.or_none
  have hvalues : ∀ x, (env.adopt other).current.values.lookup x =
      (added.lookup x).or (env.current.values.lookup x) := by
    intro x
    show (LabelMap.extend env.current.values other.current.values).lookup x = _
    rw [LabelMap.lookup_extend, LabelMap.lookup_reverse hdistinct.values, hnew]
  have htypes : ∀ x, (env.adopt other).current.types.lookup x =
      (other.current.types.lookup x).or (env.current.types.lookup x) := by
    intro x
    show (LabelMap.extend env.current.types other.current.types).lookup x = _
    rw [LabelMap.lookup_extend, LabelMap.lookup_reverse hdistinct.types]
  refine ⟨rfl, hvalues, ?_, ?_, ?_⟩
  · intro x hx
    rw [htypes, h.types x hx]
    rfl
  · intro x hx
    rw [htypes, Option.isSome_or, h.named x hx, Bool.true_or]
  · intro hd
    exact ⟨LabelMap.nodup_extend hd.values _, LabelMap.nodup_extend hd.types _⟩

end Env

/-! ## What is read off declarations -/

namespace Typed

mutual

/-- The identifiers that a declaration binds for what follows it, latest first. -/
def Decl.exports : Decl → LabelMap ValueEntry
  | .val _ _ _ _ bs => bs.reverse.map fun b => (b.name, { scheme := b.scheme })
  | .functions _ fs => fs.reverse.map fun f => (f.name, { scheme := f.scheme })
  | .datatypes _ ds => ds.reverse.flatMap fun d => d.constructors.reverse.map fun c =>
      (c.name, ⟨d.scheme c, .constructor (d.con c false)⟩)
  | .exceptions _ cs => cs.reverse.map fun c => (c.1.name, ⟨c.2, .exception c.1⟩)
  | .localIn _ _ body => exports body

/-- The identifiers that several declarations bind for what follows them, latest first. -/
def exports : List Decl → LabelMap ValueEntry
  | [] => []
  | d :: ds => exports ds ++ d.exports

end

mutual

/-- The constructors that a declaration has in scope between `in` and `end` only. -/
def Decl.hidden : Decl → List String
  | .localIn _ decls body =>
    ((exports decls).filter (·.2.isConstructor)).map (·.1) ++ hidden body
  | .val .. | .functions .. | .datatypes .. | .exceptions .. => []

def hidden : List Decl → List String
  | [] => []
  | d :: ds => hidden ds ++ d.hidden

end

theorem exports_append (ds ds' : List Decl) : exports (ds ++ ds') = exports ds' ++ exports ds := by
  induction ds with
  | nil => simp [exports]
  | cons d ds ih => simp [exports, ih]

theorem hidden_append (ds ds' : List Decl) : hidden (ds ++ ds') = hidden ds' ++ hidden ds := by
  induction ds with
  | nil => simp [hidden]
  | cons d ds ih => simp [hidden, ih]

end Typed

namespace Source

mutual

/-- The type names that a declaration binds for what follows it. -/
def Decl.typeNames : Decl → List String
  | .datatypes _ bs => bs.map (·.name)
  | .abbreviation _ _ name _ => [name]
  | .localIn _ _ body => typeNames body
  | .val .. | .functions .. | .exceptions .. => []

/-- The type names that several declarations bind for what follows them. -/
def typeNames : List Decl → List String
  | [] => []
  | d :: ds => d.typeNames ++ typeNames ds

end

end Source

namespace Source.Pattern

variable {isCon isCon' : String → Bool} {x : String}

mutual

/-- With fewer constructors a pattern binds more names. -/
theorem mem_names_mono (hx : isCon' x = true → isCon x = true) : (p : Pattern) →
    x ∈ p.names isCon → x ∈ p.names isCon'
  | .wildcard _, h | .literal _ _, h | .con _ _ none, h => h
  | .var _ y, h => by
    unfold names at h ⊢
    split at h
    · cases h
    · rename_i hy
      rw [List.mem_singleton] at h
      subst h
      rw [if_neg fun h => hy (hx h)]
      exact List.mem_singleton.mpr rfl
  | .con _ _ (some p), h => mem_names_mono hx p h
  | .tuple _ ps, h | .list _ ps, h => mem_namesList_mono hx ps h
  | .record _ fs _, h => mem_namesFields_mono hx fs h
  | .layered _ y p, h => by
    unfold names at h ⊢
    rcases List.mem_cons.mp h with rfl | h
    · exact List.mem_cons_self
    · exact List.mem_cons_of_mem y (mem_names_mono hx p h)
  | .annot _ p _, h => mem_names_mono hx p h

theorem mem_namesList_mono (hx : isCon' x = true → isCon x = true) : (ps : List Pattern) →
    x ∈ namesList isCon ps → x ∈ namesList isCon' ps
  | [], h => h
  | p :: ps, h => by
    unfold namesList at h ⊢
    exact List.mem_append.mpr ((List.mem_append.mp h).imp (mem_names_mono hx p)
      (mem_namesList_mono hx ps))

theorem mem_namesFields_mono (hx : isCon' x = true → isCon x = true) :
    (fs : List (String × Pattern)) → x ∈ namesFields isCon fs → x ∈ namesFields isCon' fs
  | [], h => h
  | (_, p) :: fs, h => by
    unfold namesFields at h ⊢
    exact List.mem_append.mpr ((List.mem_append.mp h).imp (mem_names_mono hx p)
      (mem_namesFields_mono hx fs))

end

end Source.Pattern

namespace Elaborate

open Source

variable {α : Type} {cfg : Config} {env : Env} {level : Int} {pos : Pos}

mutual

theorem mem_declNames_mono {env' : Env} {x : String}
    (hx : env'.isConstructor x = true → env.isConstructor x = true) : (d : Decl) →
    x ∈ declNames env d → x ∈ declNames env' d
  | .val _ _ p _, h => p.mem_names_mono hx h
  | .functions _ _, h | .datatypes _ _, h | .exceptions _ _, h | .abbreviation _ _ _ _, h => h
  | .localIn _ _ body, h => mem_declsNames_mono hx body h

theorem mem_declsNames_mono {env' : Env} {x : String}
    (hx : env'.isConstructor x = true → env.isConstructor x = true) : (ds : List Decl) →
    x ∈ declsNames env ds → x ∈ declsNames env' ds
  | [], h => h
  | d :: ds, h => by
    unfold declsNames at h ⊢
    exact List.mem_append.mpr ((List.mem_append.mp h).imp (mem_declNames_mono hx d)
      (mem_declsNames_mono hx ds))

end

/-- The environment after a declaration is `env` with what the declaration exports. -/
def Exports (env : Env) (types : List String) (made : Elaborated) : Prop :=
  env.Extended (Typed.exports made.decl.toList) types made.env

theorem exports_some {decl : Typed.Decl} {env' : Env} {bs : List Binding} {types : List String}
    (h : env.Extended decl.exports types env') : Exports env types ⟨some decl, env', bs⟩ := by
  show env.Extended (Typed.exports [decl]) types env'
  simpa only [Typed.exports, List.nil_append] using h

/-- Declarations bind the identifiers `names`, but for some of `hidden`.  Where one of them was a
constructor, it is bound to a constructor again. -/
structure Binds (env : Env) (types names hidden : List String) (added : LabelMap ValueEntry)
    (env' : Env) : Prop where
  extended : env.Extended added types env'
  keeps : ∀ e ∈ added, e.2.isConstructor = true ∨ env.isConstructor e.1 = false
  named : ∀ x ∈ added.map (·.1), x ∈ names
  bound : ∀ x ∈ names, x ∈ added.map (·.1) ∨ x ∈ hidden

/-- What is said of a declaration that was elaborated. -/
def Bound (env : Env) (types names : List String) (made : Elaborated) : Prop :=
  Binds env types names (Typed.hidden made.decl.toList) (Typed.exports made.decl.toList) made.env

theorem binds_some {decl : Typed.Decl} {env' : Env} {bs : List Binding} {types names : List String}
    (h : env.Extended decl.exports types env')
    (hnames : ∀ x, x ∈ decl.exports.map (·.1) ↔ x ∈ names)
    (hkeeps : ∀ e ∈ decl.exports, e.1 ∈ names →
      e.2.isConstructor = true ∨ env.isConstructor e.1 = false) :
    Bound env types names ⟨some decl, env', bs⟩ where
  extended := exports_some h
  keeps := fun e he => hkeeps e he ((hnames _).mp (List.mem_map_of_mem he))
  named := fun x => (hnames x).mp
  bound := fun x hx => .inl ((hnames x).mpr hx)

theorem Yields.withinValue {m : ElaborateM α} {P : α → Prop} (hm : Yields cfg m P) :
    Yields cfg (withinValue level m) P := by
  intro s a s' hrun
  have hresult : (m cfg (s.enterValue level)).1 = .ok a := congrArg Prod.fst hrun
  exact hm (s.enterValue level) a (m cfg (s.enterValue level)).2 (Prod.ext hresult rfl)

/-! ## Values -/

theorem binds_valueDecl (pattern : Source.Pattern) (isValue : Bool) (expr : Typed.Expr) :
    Yields cfg (valueDecl env level pos pattern isValue expr)
      (Bound env [] (pattern.names env.isConstructor)) := by
  unfold valueDecl
  have hpattern : Collects cfg env (elaboratePattern env (level + 1) pattern)
      (PatternMade False [] (pattern.names env.isConstructor)) :=
    collects_elaboratePattern nofun pattern
  refine .bind (hpattern []) ?_
  rintro ⟨p, vars⟩ ⟨new, hvars, hnew, -, hnames, -⟩
  obtain rfl : vars = new := hvars
  refine .then fun _ => .then fun m => .bind (yields_bindings vars) fun bindings hbindings => ?_
  refine .then fun _ => .pure (binds_some ?_ ?_ ?_)
  · exact Env.extended_binds (fun b : Binding => (b.name, { scheme := b.scheme })) (fun _ _ => rfl)
      bindings env
  · intro x
    rw [← hnames.mem_iff, ← hbindings]
    simp [Typed.Decl.exports]
  · intro e _ he
    obtain ⟨v, hv, hname⟩ := List.mem_map.mp (hnames.mem_iff.mpr he)
    exact .inr (hname ▸ hnew.1 v hv)

theorem binds_recursiveDecl {pattern : Source.Pattern} {isFn : Bool} {exprPos : Pos}
    {expr : Env → ElaborateM Typed.Expr} :
    Yields cfg (recursiveDecl env level pos pattern isFn exprPos expr)
      (Bound env [] (pattern.names env.isConstructor)) := by
  unfold recursiveDecl
  split
  · exact .fail
  · rename_i name annot hname
    obtain ⟨hvar, hnames⟩ := recursiveName?_names hname
    have hlast : ∀ t, Yields cfg (do
        let fn ← expr (env.bind name (.mono t))
        Elaborate.unify exprPos t fn.type
        let σ ← generalize env pos level t
        let bindings : List Binding := [⟨name, σ⟩]
        traceBindings bindings
        return ⟨some (.functions pos [⟨name, σ, fn⟩]), env.bind name σ, bindings⟩)
        (Bound env [] (pattern.names env.isConstructor)) := by
      intro t
      refine .then fun fn => .then fun _ => .then fun σ => .then fun _ => .pure ?_
      rw [hnames]
      refine binds_some (env.extended_bindValue name { scheme := σ }) (fun _ => .rfl) fun e he _ => ?_
      cases List.mem_singleton.mp he
      exact .inr hvar
    refine .ite (fun _ => .fail_bind) fun _ => .then fun t => ?_
    cases annot with
    | none => exact hlast t
    | some annot => exact .then fun _ => .then fun _ => hlast t

/-! ## Groups of functions -/

/-- The name of a function of a group, with its number. -/
def numbered (members : List Member) (i : Nat) : Option (Nat × String) :=
  (members[i]?).map fun f => (i, f.name)

/-- What a function of a group is bound to. -/
def functionEntry (f : Typed.FunBinding) : String × ValueEntry := (f.name, { scheme := f.scheme })

theorem exports_generalizeMembers (rs : List (Nat × Member × Ty × Typed.Expr)) :
    Yields cfg (generalizeMembers level env rs) fun r =>
      env.Extended (r.2.reverse.map fun e => functionEntry e.2) [] r.1 ∧
        r.2.map (fun e => (e.1, e.2.name)) = rs.map fun e => (e.1, e.2.1.name) := by
  induction rs generalizing env with
  | nil => exact .pure ⟨.refl env, rfl⟩
  | cons r rs ih =>
    unfold generalizeMembers
    refine .then fun σ => .bind ih ?_
    rintro ⟨env', done⟩ ⟨hextended, hnames⟩
    refine .pure ⟨?_, congrArg (List.cons _) hnames⟩
    rw [List.reverse_cons, List.map_append]
    exact (env.extended_bindValue r.2.1.name { scheme := σ }).trans hextended

theorem names_elaborateMembers {scope : Env} (component : List (Nat × Member × Ty)) :
    Yields cfg (elaborateMembers scope level component) fun rs =>
      rs.map (fun e => (e.1, e.2.1.name)) = component.map fun e => (e.1, e.2.1.name) := by
  refine .map_mapM (fun c => ?_) component
  exact .then fun fn => .then fun _ => .pure rfl

theorem exports_component (component : List (Nat × Member)) :
    Yields cfg (elaborateComponent env level component) fun r =>
      env.Extended (r.2.reverse.map fun e => functionEntry e.2) [] r.1 ∧
        r.2.map (fun e => (e.1, e.2.name)) = component.map fun e => (e.1, e.2.name) := by
  unfold elaborateComponent
  refine .bind (yields_typed component) fun typed htyped => ?_
  have hnames : typed.map (fun e => (e.1, e.2.1.name)) = component.map fun e => (e.1, e.2.name) := by
    rw [← htyped, List.map_map]
    rfl
  refine .bind (names_elaborateMembers typed) fun rs hrs => ?_
  intro s r s' hrun
  obtain ⟨hextended, hdone⟩ := exports_generalizeMembers rs s r s' hrun
  exact ⟨hextended, hdone.trans (hrs.trans hnames)⟩

theorem exports_components (members : List Member) (components : List (List Nat)) :
    Yields cfg (elaborateComponents level members env components) fun r =>
      env.Extended (r.2.reverse.map fun e => functionEntry e.2) [] r.1 ∧
        r.2.map (fun e => (e.1, e.2.name)) = components.flatten.filterMap (numbered members) := by
  induction components generalizing env with
  | nil => exact .pure ⟨.refl env, rfl⟩
  | cons c cs ih =>
    unfold elaborateComponents
    refine .bind (exports_component _) ?_
    rintro ⟨env₁, done⟩ ⟨hfirst, hdone⟩
    refine .bind ih ?_
    rintro ⟨env₂, rest⟩ ⟨hlast, hrest⟩
    refine .pure ⟨?_, ?_⟩
    · rw [List.reverse_append, List.map_append]
      exact hfirst.trans hlast
    · rw [List.map_append, hdone, hrest, List.flatten_cons, List.filterMap_append,
        List.map_filterMap]
      simp only [numbered, Option.map_map]
      rfl

/-- With different numbers, looking up all numbers gives all functions back. -/
theorem filterMap_lookup {β : Type} (done : List (Nat × β)) (hdone : (done.map (·.1)).Nodup) :
    (done.map (·.1)).filterMap (fun i => done.lookup i) = done.map (·.2) := by
  induction done with
  | nil => rfl
  | cons e done ih =>
    obtain ⟨hnot, hrest⟩ := List.nodup_cons.mp hdone
    have hskip : ∀ i ∈ done.map (·.1), (e :: done).lookup i = done.lookup i := by
      intro i hi
      have hne : i ≠ e.1 := by
        rintro rfl
        exact hnot hi
      rw [List.lookup_cons, beq_false_of_ne hne]
    have hself : (e :: done).lookup e.1 = some e.2 := by
      rw [List.lookup_cons, beq_self_eq_true]
    rw [List.map_cons, List.filterMap_cons, hself, List.map_cons, List.filterMap_congr hskip,
      ih hrest]

/-- The functions of a group in order of declaration are those that were elaborated. -/
theorem perm_functions {members : List Member} {components : List (List Nat)}
    {done : List (Nat × Typed.FunBinding)}
    (hcomponents : components.flatten.Perm (List.range members.length))
    (hdone : done.map (fun e => (e.1, e.2.name)) = components.flatten.filterMap (numbered members)) :
    ((List.range members.length).filterMap fun i => done.lookup i).Perm (done.map (·.2)) ∧
      (done.map (·.2.name)).Perm (members.map (·.name)) := by
  have hnumbers : done.map (·.1) = components.flatten := by
    have hfst : done.map (·.1) = (components.flatten.filterMap (numbered members)).map (·.1) := by
      rw [← hdone, List.map_map]
      rfl
    rw [hfst, List.map_filterMap]
    have hkeep : ∀ i ∈ components.flatten, (numbered members i).map (·.1) = some i := by
      intro i hi
      have hlt : i < members.length := List.mem_range.mp (hcomponents.mem_iff.mp hi)
      simp [numbered, List.getElem?_eq_getElem hlt]
    rw [List.filterMap_congr hkeep, List.filterMap_some]
  have hnodup : (done.map (·.1)).Nodup := by
    rw [hnumbers]
    exact hcomponents.nodup_iff.mpr List.nodup_range
  constructor
  · rw [← filterMap_lookup done hnodup, hnumbers]
    exact hcomponents.symm.filterMap _
  · have hsnd : done.map (·.2.name) =
        (components.flatten.filterMap (numbered members)).map (·.2) := by
      rw [← hdone, List.map_map]
      rfl
    have hall : members.map (·.name) =
        ((List.range members.length).filterMap (numbered members)).map (·.2) := by
      have hname : ∀ i ∈ List.range members.length, (numbered members i).map (·.2) =
          some (((members[i]?).map (·.name)).getD "") := by
        intro i hi
        simp [numbered, List.getElem?_eq_getElem (List.mem_range.mp hi)]
      rw [List.map_filterMap, List.filterMap_congr hname, List.filterMap_eq_map']
      refine List.ext_getElem (by simp) fun i hi _ => ?_
      simp [List.getElem?_eq_getElem (by simpa using hi)]
    rw [hsnd, hall]
    exact (hcomponents.filterMap _).map _

theorem binds_functionsDecl {members : List Member} {components : List (List Nat)}
    (hcomponents : (members.map (·.name)).Nodup →
      components.flatten.Perm (List.range members.length)) :
    Yields cfg (functionsDecl env level pos members components)
      (Bound env [] (members.map (·.name))) := by
  unfold functionsDecl
  refine .bind isConstructor_checkNames ?_
  rintro _ ⟨hnodup, -, hvars⟩
  refine .then fun _ => .bind (exports_components members components) ?_
  rintro ⟨env', done⟩ ⟨hextended, hdone⟩
  obtain ⟨hfunctions, hnames⟩ := perm_functions (hcomponents hnodup) hdone
  refine .then fun _ => .pure (binds_some (hextended.congr fun x => ?_) ?_ ?_)
  rotate_left
  · intro x
    have hbound := hfunctions.map Typed.FunBinding.name
    rw [List.map_map] at hbound
    rw [← (hbound.trans hnames).mem_iff]
    simp [Typed.Decl.exports]
  · intro e _ he
    obtain ⟨f, hf, hname⟩ := List.mem_map.mp he
    exact .inr (hname ▸ hvars f hf)
  -- the functions have different names, so the order in which they were bound does not matter
  have hlabels : ((done.reverse.map fun e => functionEntry e.2).map (·.1)).Nodup := by
    rw [List.map_map]
    exact ((done.reverse_perm.map _).trans hnames).nodup_iff.mpr hnodup
  refine (LabelMap.lookup_perm hlabels ?_ x).symm
  have hentries : (done.map fun e => functionEntry e.2).Perm
      (((List.range members.length).filterMap fun i => done.lookup i).map functionEntry) := by
    have h := (hfunctions.symm.map functionEntry)
    rwa [List.map_map] at h
  exact ((done.reverse_perm.map _).trans hentries).trans ((List.reverse_perm _).map _).symm

theorem names_members (bs : List FunBinding) : (members bs).map (·.name) = bs.map (·.name) := by
  induction bs with
  | nil => simp only [members, List.map_nil]
  | cons b bs ih =>
    obtain ⟨pos, name, clauses⟩ := b
    simp only [members, List.map_cons, ih]

/-- Every function of a group belongs to one component. -/
theorem perm_components (bs : List FunBinding) (hnames : ((members bs).map (·.name)).Nodup) :
    (Dependency.components (bs.map fun b => ⟨b.name, b.clauses.map fun c => (c.params, c.body)⟩)
      ).flatten.Perm (List.range (members bs).length) := by
  have hlength : (members bs).length = bs.length := by
    simpa using congrArg List.length (names_members bs)
  rw [names_members] at hnames
  rw [hlength]
  have hdistinct : ((bs.map fun b : FunBinding => (⟨b.name, b.clauses.map fun c =>
      (c.params, c.body)⟩ : Dependency.Binding)).map (·.name)).Nodup := by
    rw [List.map_map]
    exact hnames
  have hpartition := (Dependency.sorted_components hdistinct).partition
  rwa [List.length_map] at hpartition

/-! ## Types and exceptions -/

theorem binds_datatypesDecl (bs : List DatatypeBinding) :
    Yields cfg (datatypesDecl env level pos bs) (Bound env (bs.map (·.name))
      (bs.flatMap fun b => b.constructors.map (·.name))) := by
  unfold datatypesDecl
  refine .bind (yields_declareDatatypes bs []) ?_
  rintro drafts ⟨hdrafts, hempty⟩
  refine .bind (yields_completeDatatypes drafts [] hempty) ?_
  rintro ds ⟨hnames, hconstructors⟩
  refine .then fun _ => .pure (binds_some ?_ ?_ ?_)
  rotate_left
  · intro x
    rw [← hdrafts, List.flatMap_map, ← hconstructors]
    simp [Typed.Decl.exports, List.map_flatMap]
  · intro e he _
    obtain ⟨d, -, he⟩ := List.mem_flatMap.mp he
    obtain ⟨c, -, rfl⟩ := List.mem_map.mp he
    exact .inl rfl
  have hsource : bs.map (·.name) = ds.flatMap fun d => [d.name] := by
    rw [← List.map_eq_flatMap, hnames, ← hdrafts, List.map_map]
    rfl
  have htypes : env.Extended (ds.reverse.flatMap fun _ => []) (ds.flatMap fun d => [d.name])
      (ds.foldl bindDatatype env) :=
    Env.extended_foldl (fun env d => env.extended_bindType d.name _) ds env
  have hconstructors := Env.extended_foldl (fun env (d : Datatype) =>
    Env.extended_binds (fun c : Constructor =>
      (c.name, ⟨d.scheme c, .constructor (d.con c false)⟩)) (fun _ _ => rfl) d.constructors env)
    ds (ds.foldl bindDatatype env)
  have hboth := htypes.trans hconstructors
  rw [List.flatMap_eq_nil_iff.mpr fun _ _ => rfl, List.append_nil,
    List.flatMap_eq_nil_iff.mpr fun _ _ => rfl, List.append_nil] at hboth
  rw [hsource]
  exact hboth

theorem binds_abbreviationDecl (params : List String) (name : String) (type : TypeExpr) :
    Yields cfg (abbreviationDecl env level pos params name type) (Bound env [name] []) := by
  unfold abbreviationDecl
  exact .then fun params => .then fun body => .then fun _ =>
    .pure ⟨env.extended_bindType name _, nofun, nofun, nofun⟩

theorem exports_declareExceptions {exn : Datatype} (bs : List ConBinding) :
    Yields cfg (declareExceptions exn level env bs) fun r =>
      env.Extended (r.2.reverse.map fun c => (c.1.name, ⟨c.2, .exception c.1⟩)) [] r.1 ∧
        r.2.map (·.1.name) = bs.map (·.name) := by
  induction bs generalizing env with
  | nil => exact .pure ⟨.refl env, rfl⟩
  | cons b bs ih =>
    unfold declareExceptions
    refine .then fun arg => .then fun _ => .then fun s => ?_
    refine .bind ih ?_
    rintro ⟨env', rest⟩ ⟨hextended, hnames⟩
    refine .pure ⟨?_, congrArg (List.cons b.name) hnames⟩
    rw [List.reverse_cons, List.map_append]
    exact (env.extended_bindValue b.name _).trans hextended

theorem binds_exceptionsDecl (bs : List ConBinding) :
    Yields cfg (exceptionsDecl env level pos bs) (Bound env [] (bs.map (·.name))) := by
  unfold exceptionsDecl
  split
  · exact .fail
  · refine .bind (exports_declareExceptions bs) ?_
    rintro ⟨env', constructors⟩ ⟨hextended, hnames⟩
    refine .pure (binds_some hextended (fun x => ?_) fun e he _ => ?_)
    · rw [← hnames]
      simp [Typed.Decl.exports]
    · obtain ⟨c, -, rfl⟩ := List.mem_map.mp he
      exact .inl rfl

/-! ## All declarations -/

section Local

variable {types types' names names' hidden hidden' : List String}
  {added added' : LabelMap ValueEntry} {env₁ env₂ inner other : Env}

section Binds

variable (h : Binds env types names hidden added env₁)
include h

theorem Binds.isConstructor (x : String) :
    env₁.isConstructor x = ((added.lookup x).or (env.value? x)).any (·.isConstructor) := by
  rw [Env.isConstructor, h.extended.value?]

/-- What was a constructor is still a constructor. -/
theorem Binds.isConstructor_after {x : String} (hx : env.isConstructor x = true) :
    env₁.isConstructor x = true := by
  rw [h.isConstructor]
  cases hlookup : added.lookup x with
  | none => exact hx
  | some v =>
    refine (h.keeps _ (LabelMap.mem_of_lookup hlookup)).resolve_right fun hnot => ?_
    cases hx.symm.trans hnot

theorem Binds.keeps_after {e : String × ValueEntry}
    (he : e.2.isConstructor = true ∨ env₁.isConstructor e.1 = false) :
    e.2.isConstructor = true ∨ env.isConstructor e.1 = false :=
  he.imp_right fun hnot => Bool.eq_false_iff.mpr fun hcon =>
    Bool.eq_false_iff.mp hnot (h.isConstructor_after hcon)

theorem Binds.cons {ds : List Decl}
    (h' : Binds env₁ types' (declsNames env₁ ds) hidden' added' env₂) :
    Binds env (types ++ types') (names ++ declsNames env ds) (hidden' ++ hidden) (added' ++ added)
      env₂ := by
  refine ⟨h.extended.trans h'.extended, ?_, ?_, ?_⟩
  · exact List.forall_mem_append.mpr ⟨fun e he => h.keeps_after (h'.keeps e he), h.keeps⟩
  · intro x hx
    rw [List.map_append, List.mem_append] at hx
    refine List.mem_append.mpr (hx.symm.imp (h.named x) fun hx => ?_)
    exact mem_declsNames_mono h.isConstructor_after ds (h'.named x hx)
  · intro x hx
    rw [List.map_append, List.mem_append, List.mem_append]
    by_cases hfirst : x ∈ added.map (·.1)
    · exact .inl (.inr hfirst)
    · rcases List.mem_append.mp hx with hx | hx
      · exact (h.bound x hx).imp .inr .inr
      · -- the first declaration leaves `x` alone, so it is a variable in the others as well
        refine (h'.bound x (mem_declsNames_mono (fun hcon => ?_) ds hx)).imp .inl .inl
        rwa [h.isConstructor, LabelMap.lookup_eq_none.mpr hfirst] at hcon

end Binds

theorem Binds.adopt {body : List Decl} (h : Binds env.scope types names hidden added inner)
    (h' : Binds inner.scope types' (declsNames inner.scope body) hidden' added' other) :
    Binds env types' (declsNames env body)
      ((added.filter (·.2.isConstructor)).map (·.1) ++ hidden') added' (env.adopt other) := by
  refine ⟨h'.extended.adopt env, fun e he => h.keeps_after (h'.keeps e he), ?_, ?_⟩
  · intro x hx
    refine mem_declsNames_mono (fun hcon => ?_) body (h'.named x hx)
    exact h.isConstructor_after hcon
  · intro x hx
    by_cases hhidden : x ∈ (added.filter (·.2.isConstructor)).map (·.1)
    · exact .inr (List.mem_append_left _ hhidden)
    · refine (h'.bound x (mem_declsNames_mono (fun hcon => ?_) body hx)).imp_right
        (List.mem_append_right _)
      have hinner : inner.isConstructor x = true := hcon
      rw [h.isConstructor] at hinner
      cases hlookup : added.lookup x with
      | none => rwa [hlookup] at hinner
      | some v =>
        rw [hlookup] at hinner
        have hmem : (x, v) ∈ added.filter (·.2.isConstructor) :=
          List.mem_filter.mpr ⟨LabelMap.mem_of_lookup hlookup, hinner⟩
        exact absurd (List.mem_map_of_mem hmem) hhidden

end Local

mutual

theorem binds_elaborateDecl (env : Env) (level : Int) : (d : Decl) →
    Yields cfg (elaborateDecl env level d) (Bound env d.typeNames (declNames env d))
  | .val pos false pattern expr => by
    unfold elaborateDecl
    exact .withinValue (.then fun e => binds_valueDecl pattern _ e)
  | .val pos true pattern expr => by
    unfold elaborateDecl
    exact .withinValue binds_recursiveDecl
  | .functions pos bs => by
    unfold elaborateDecl declNames
    rw [← names_members]
    exact .withinValue (binds_functionsDecl (perm_components bs))
  | .datatypes pos bs => by
    unfold elaborateDecl
    exact binds_datatypesDecl bs
  | .abbreviation pos params name type => by
    unfold elaborateDecl
    exact binds_abbreviationDecl params name type
  | .exceptions pos bs => by
    unfold elaborateDecl
    exact binds_exceptionsDecl bs
  | .localIn pos decls body => by
    unfold elaborateDecl
    refine .bind (binds_elaborateDecls env.scope level decls) fun ds hds => ?_
    refine .bind (binds_elaborateDecls ds.2.1.scope level body) fun bs hbs => ?_
    exact .pure (hds.adopt hbs)

/-- Declarations one after the other export what each of them exports. -/
theorem binds_elaborateDecls (env : Env) (level : Int) : (ds : List Decl) →
    Yields cfg (elaborateDecls env level ds) fun r =>
      Binds env (typeNames ds) (declsNames env ds) (Typed.hidden r.1) (Typed.exports r.1) r.2.1
  | [] => by
    unfold elaborateDecls
    exact .pure ⟨.refl env, nofun, nofun, nofun⟩
  | d :: ds => by
    unfold elaborateDecls
    refine .bind (binds_elaborateDecl env level d) fun first hfirst => ?_
    refine .bind (binds_elaborateDecls first.env level ds) ?_
    rintro ⟨rest, env', bindings⟩ hrest
    refine .pure ?_
    rw [Typed.exports_append, Typed.hidden_append]
    exact hfirst.cons hrest

end

theorem exports_elaborateDecl (env : Env) (level : Int) (d : Decl) :
    Yields cfg (elaborateDecl env level d) (Exports env d.typeNames) :=
  fun s made s' h => (binds_elaborateDecl env level d s made s' h).extended

theorem exports_elaborateDecls (env : Env) (level : Int) (ds : List Decl) :
    Yields cfg (elaborateDecls env level ds) fun r =>
      env.Extended (Typed.exports r.1) (typeNames ds) r.2.1 :=
  fun s r s' h => (binds_elaborateDecls env level ds s r s' h).extended

/-- A declaration that succeeds adds entries to the current frame only.  Their names are among those
that it would bind if it failed; and of these it leaves out only constructors that it hides. -/
theorem bound_names_of_success (cfg : Config) (env : Env) (level : Int) (d : Decl) (s s' : State)
    (made : Elaborated) (h : elaborateDecl env level d cfg s = (.ok made, s')) :
    made.env.outer = env.outer ∧
      (∀ x, made.env.current.values.lookup x =
        ((Typed.exports made.decl.toList).lookup x).or (env.current.values.lookup x)) ∧
      (∀ x ∈ (Typed.exports made.decl.toList).map (·.1), x ∈ declNames env d) ∧
      ∀ x ∈ declNames env d, x ∉ Typed.hidden made.decl.toList →
        x ∈ (Typed.exports made.decl.toList).map (·.1) := by
  have hbinds := binds_elaborateDecl env level d s made s' h
  refine ⟨hbinds.extended.outer, hbinds.extended.values, hbinds.named, ?_⟩
  exact fun x hx hnot => (hbinds.bound x hx).resolve_right hnot

/-- `local datatype t = A in val (A, b) = (A, 1) end` -/
def testsHidden : Decl :=
  let p := Pos.none
  .localIn p [.datatypes p [⟨p, [], "t", [⟨p, "A", none⟩]⟩]]
    [.val p false (.tuple p [.var p "A", .var p "b"])
      (.tuple p [.var p "A", .literal p ⟨.int, "1"⟩])]

theorem testsHidden_run : declNames (Env.initial {}).1 testsHidden = ["A", "b"] ∧
    (elaborateDecl (Env.initial {}).1 0 testsHidden {} preludeState).1.toOption.map (fun made =>
      (Typed.hidden made.decl.toList, (made.env.value? "A").isSome)) = some (["A"], false) := by
  decide +kernel

theorem bound_names_of_success_testsHidden :
    ∃ made s', elaborateDecl (Env.initial {}).1 0 testsHidden {} preludeState = (.ok made, s') ∧
      declNames (Env.initial {}).1 testsHidden = ["A", "b"] ∧
      Typed.hidden made.decl.toList = ["A"] ∧
      "b" ∈ (Typed.exports made.decl.toList).map (·.1) := by
  obtain ⟨hnames, hhidden⟩ := testsHidden_run
  rcases hrun : elaborateDecl (Env.initial {}).1 0 testsHidden {} preludeState with ⟨r, s'⟩
  rw [hrun] at hhidden
  cases r with
  | error e => cases hhidden
  | ok made =>
    have hmade : Typed.hidden made.decl.toList = ["A"] := congrArg Prod.fst (Option.some.inj hhidden)
    obtain ⟨-, -, -, hbound⟩ :=
      bound_names_of_success {} (Env.initial {}).1 0 testsHidden preludeState s' made hrun
    refine ⟨made, s', rfl, hnames, hmade, hbound "b" ?_ ?_⟩
    · simp [hnames]
    · simp [hmade]

/-- Where the declaration succeeds, `A` is not bound; where it fails, it would be. -/
theorem hidden_constructor_counted :
    "A" ∈ declNames (Env.initial {}).1 testsHidden ∧
      (elaborateDecl (Env.initial {}).1 0 testsHidden {} preludeState).1.toOption.map
        (fun made => (made.env.value? "A").isSome) = some false := by
  obtain ⟨hnames, hrun⟩ := testsHidden_run
  have hvalue := congrArg (Option.map Prod.snd) hrun
  rw [Option.map_map] at hvalue
  exact ⟨by simp [hnames], hvalue⟩

end Elaborate

end Typecase
