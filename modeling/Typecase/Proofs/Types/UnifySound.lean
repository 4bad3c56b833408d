import Typecase.Proofs.Types.Course
set_option autoImplicit false

/-!
# Unified types are equal

What callers of unification promise of the types that they unify makes the store tidy, and in a
tidy store the course of a unification that succeeds makes the types equal.
-/

namespace Typecase.Store

variable {s s' : Store} {ts : List Ty} {x : Ty}

/-! ## The discipline of callers -/

/-- A variable is used at a kind in one of the types. -/
def UsedIn (s : Store) (ts : List Ty) (v : Var) (k : Kind) : Prop := ∃ t ∈ ts, s.Uses .type t v k

/-- `x` is one of the types or a part of one of them. -/
def PartOf (s : Store) (ts : List Ty) (x : Ty) : Prop :=
  ∃ t ∈ ts, Relation.ReflTransGen s.Child t x

/-- What callers of unification promise of the types that they unify. -/
structure Disciplined (s : Store) (ts : List Ty) : Prop where
  /-- The resolved types are finite. -/
  finite : ∀ t ∈ ts, s.Resolvable t
  /-- No variable is quantified. -/
  ready : ∀ v k, s.UsedIn ts v k → (s.state v).Ready
  /-- No variable is used both for a type and for the rest of a row. -/
  kinds : ∀ v, ¬ (s.UsedIn ts v .type ∧ s.UsedIn ts v .row)
  /-- No row repeats a label. -/
  noRepeat : ∀ x, s.PartOf ts x → s.NoRepeat x
  /-- Rows that end in the same variable have the same labels and equal fields. -/
  shared : ∀ x y fs gs v, s.PartOf ts x → s.PartOf ts y → s.Fields x fs (.flexible v) →
    s.Fields y gs (.flexible v) → LabelMap.has fs = LabelMap.has gs ∧
      ∀ l t u, fs.lookup l = some t → gs.lookup l = some u → (s.resolve t).Same (s.resolve u)

/-- What unification relies on for coming to an end. -/
structure Amenable (s : Store) (ts : List Ty) : Prop where
  /-- The resolved types are finite. -/
  finite : ∀ t ∈ ts, s.Resolvable t
  /-- The levels of unbound variables stand for no other state. -/
  leveled : ∀ v k, s.UsedIn ts v k → (s.state v).Leveled
  /-- No variable is used both for a type and for the rest of a row. -/
  kinds : ∀ v, ¬ (s.UsedIn ts v .type ∧ s.UsedIn ts v .row)
  /-- No row repeats a label. -/
  noRepeat : ∀ x, s.PartOf ts x → s.NoRepeat x
  /-- Rows that end in the same unbound variable have the same labels and equal fields. -/
  shared : ∀ x y fs gs v, s.PartOf ts x → s.PartOf ts y → s.Fields x fs (.flexible v) →
    s.Fields y gs (.flexible v) → (s.state v).isUnbound = true →
      LabelMap.has fs = LabelMap.has gs ∧
        ∀ l t u, fs.lookup l = some t → gs.lookup l = some u → (s.resolve t).Same (s.resolve u)

theorem Disciplined.amenable (h : s.Disciplined ts) : s.Amenable ts where
  finite := h.finite
  leveled := fun v k hv => (h.ready v k hv).leveled
  kinds := h.kinds
  noRepeat := h.noRepeat
  shared := fun x y fs gs v hx hy hfieldsx hfieldsy _ =>
    h.shared x y fs gs v hx hy hfieldsx hfieldsy

theorem PartOf.child {c : Ty} (h : s.PartOf ts x) (hc : s.Child x c) : s.PartOf ts c := by
  obtain ⟨t, ht, hbelow⟩ := h
  exact ⟨t, ht, hbelow.tail hc⟩

theorem PartOf.below {y : Ty} (h : s.PartOf ts x) (hy : Relation.ReflTransGen s.Child x y) :
    s.PartOf ts y := by
  obtain ⟨t, ht, hbelow⟩ := h
  exact ⟨t, ht, hbelow.trans hy⟩

theorem Amenable.equal (h : s.Amenable ts) (hresolvable : ∀ x, s.PartOf ts x → s.Resolvable x)
    {y : Ty} (hx : s.PartOf ts x) (hy : s.PartOf ts y) (hsame : (s.resolve x).Same (s.resolve y)) :
    s.Equal x y :=
  equal_of_same hsame (hresolvable x hx) (hresolvable y hy)
    (fun z hz => h.noRepeat z (hx.below hz)) (fun z hz => h.noRepeat z (hy.below hz))

/-- The order that unification relies on and keeps up.  Variables that are not used for types may
stand for rows. -/
theorem Amenable.tidy_kind (h : s.Amenable ts) :
    ∃ kind, s.Tidy kind {x | s.PartOf ts x} ∧ ∀ v, ¬ s.UsedIn ts v .type → kind v = .row := by
  classical
  let kind : Var → Kind := fun v => if s.UsedIn ts v .type ∧ v < s.size then .type else .row
  have hroots : ∀ t ∈ ts, s.Proper kind .type t := by
    intro t ht
    refine (h.finite t ht).proper ?_
    intro v k hv
    have hused : s.UsedIn ts v k := ⟨t, ht, hv⟩
    refine ⟨?_, h.leveled v k hused⟩
    cases k with
    | row => exact if_neg fun htype => h.kinds v ⟨htype.1, hused⟩
    | type => exact if_pos ⟨hused, (h.finite t ht).reach hv.reach⟩
  have hproper : ∀ x, s.PartOf ts x → s.Proper kind .type x := by
    rintro x ⟨t, ht, hbelow⟩
    induction hbelow with
    | refl => exact hroots t ht
    | tail _ hchild ih => exact ih.child hchild
  have hresolvable : ∀ x, s.PartOf ts x → s.Resolvable x := fun x hx => (hproper x hx).resolvable
  refine ⟨kind, ⟨hproper, fun x hx c hc => hx.child hc, h.noRepeat, ?_, ?_⟩, ?_⟩
  · intro x hx y hy fs gs v hfieldsx hfieldsy hgeneric
    have hunbound : (s.state v).isUnbound = true := by
      cases hv : s.state v with
      | unbound l => rfl
      | generic => exact absurd hv hgeneric
      | linked t => exact absurd hv (hfieldsx.unlinked t)
    obtain ⟨hlabels, hsame⟩ := h.shared x y fs gs v hx hy hfieldsx hfieldsy hunbound
    refine .node hfieldsx.view (hlabels ▸ hfieldsy.view) ?_
    intro slot t u ht hu
    cases slot with
    | index i => cases ht
    | field l =>
      exact h.equal hresolvable (hx.child (hfieldsx.child ht)) (hy.child (hfieldsy.child hu))
        (hsame l t u ht hu)
  · exact fun v hv => if_neg fun htype => absurd htype.2 (Nat.not_lt.mpr hv)
  · exact fun v hv => if_neg fun htype => hv htype.1

theorem Amenable.tidy (h : s.Amenable ts) : ∃ kind, s.Tidy kind {x | s.PartOf ts x} :=
  h.tidy_kind.imp fun _ htidy => htidy.1

theorem Disciplined.tidy (h : s.Disciplined ts) : ∃ kind, s.Tidy kind {x | s.PartOf ts x} :=
  h.amenable.tidy

/-! ## Records of constants -/

/-- A record whose fields have the given type constructors as types. -/
def recordOf (fs : List (String × String)) (e : RowEnd) : Ty :=
  .record .plain (.rowExtend .plain (fs.map fun f => (f.1, Ty.const f.2)) e.toTy)

theorem not_child_const {name : String} {c : Ty} : ¬ s.Child (Ty.const name) c := by
  rintro ⟨sym, k, slot, hview, hc⟩
  obtain ⟨-, rfl⟩ := hview.unique .con
  cases slot <;> cases hc

theorem not_fields_const {name : String} {fs : List (String × Ty)} {e : RowEnd} :
    ¬ s.Fields (Ty.const name) fs e := by
  intro h
  cases h with
  | row hr => cases hr

theorem same_const (s : Store) (name : String) :
    (s.resolve (Ty.const name)).Same (s.resolve (Ty.const name)) := by
  have hresolve : s.resolve (Ty.const name) = .con name [] := by
    unfold resolve
    cases s.size <;> simp [resolveAt, Ty.const, resolveWith, resolveListWith]
  rw [hresolve]
  refine .node rfl ?_
  intro slot t u ht
  cases slot <;> cases ht

theorem uses_recordOf (fs : List (String × String)) (e : RowEnd) :
    (recordOf fs e).uses .type = e.toTy.uses .row := by
  have hfields : Ty.usesFields (fs.map fun f => (f.1, Ty.const f.2)) = [] := by
    induction fs with
    | nil => rfl
    | cons f fs ih => rw [List.map_cons, Ty.usesFields, ih]; rfl
  simp [recordOf, Ty.uses, hfields]

section Records

variable {rs : List (List (String × String) × RowEnd)}

/-- The open records among `rs` end in different unbound variables. -/
structure OpenApart (s : Store) (rs : List (List (String × String) × RowEnd)) : Prop where
  unbound : ∀ p ∈ rs, ∀ v, p.2 = .flexible v → ∃ l, s.state v = .unbound l ∧ Level.Valid l
  nodup : ∀ p ∈ rs, (p.1.map (·.1)).Nodup
  apart : ∀ p ∈ rs, ∀ q ∈ rs, ∀ v, p.2 = .flexible v → q.2 = .flexible v → p = q

theorem OpenApart.fields (h : s.OpenApart rs) {p : List (String × String) × RowEnd} (hp : p ∈ rs) :
    s.Fields (recordOf p.1 p.2) (p.1.map fun f => (f.1, Ty.const f.2)) p.2 := by
  have hend : s.Row p.2.toTy [] p.2 := by
    cases he : p.2 with
    | rigid => exact .rigid
    | flexible v =>
      obtain ⟨l, hl, -⟩ := h.unbound p hp v he
      exact .flexible (by simp [hl])
  have hrow := Fields.row (t := recordOf p.1 p.2) rfl (Row.extend hend)
  rwa [List.append_nil] at hrow

/-- The parts of the records. -/
theorem OpenApart.part (h : s.OpenApart rs) {x : Ty}
    (hx : s.PartOf (rs.map fun p => recordOf p.1 p.2) x) :
    (∃ p ∈ rs, x = recordOf p.1 p.2) ∨ ∃ name, x = Ty.const name := by
  obtain ⟨t, ht, hbelow⟩ := hx
  induction hbelow with
  | refl =>
    obtain ⟨p, hp, rfl⟩ := List.mem_map.mp ht
    exact Or.inl ⟨p, hp, rfl⟩
  | tail _ hchild ih =>
    rcases ih with ⟨p, hp, rfl⟩ | ⟨name, rfl⟩
    · obtain ⟨l, hmem⟩ := (h.fields hp).mem_of_child hchild
      obtain ⟨f, -, hf⟩ := List.mem_map.mp hmem
      exact Or.inr ⟨f.2, (Prod.mk.inj hf).2.symm⟩
    · exact absurd hchild not_child_const

theorem OpenApart.fields_inv (h : s.OpenApart rs) {x : Ty}
    (hx : s.PartOf (rs.map fun p => recordOf p.1 p.2) x) {fs : List (String × Ty)} {e : RowEnd}
    (hfields : s.Fields x fs e) :
    ∃ p ∈ rs, fs = p.1.map (fun f => (f.1, Ty.const f.2)) ∧ e = p.2 := by
  rcases h.part hx with ⟨p, hp, rfl⟩ | ⟨name, rfl⟩
  · exact ⟨p, hp, hfields.unique (h.fields hp)⟩
  · exact absurd hfields not_fields_const

theorem OpenApart.usedIn (h : s.OpenApart rs) {v : Var} {k : Kind}
    (hv : s.UsedIn (rs.map fun p => recordOf p.1 p.2) v k) :
    (∃ l, s.state v = .unbound l ∧ Level.Valid l) ∧ k = .row := by
  obtain ⟨t, ht, huses⟩ := hv
  obtain ⟨p, hp, rfl⟩ := List.mem_map.mp ht
  have hend : ∀ w k', (w, k') ∈ (recordOf p.1 p.2).uses .type → p.2 = .flexible w ∧ k' = .row := by
    intro w k' hw
    rw [uses_recordOf] at hw
    cases he : p.2 with
    | rigid =>
      rw [he] at hw
      cases hw
    | flexible u =>
      rw [he] at hw
      cases List.mem_singleton.mp hw
      exact ⟨rfl, rfl⟩
  cases huses with
  | here hmem => exact ⟨h.unbound p hp v (hend v k hmem).1, (hend v k hmem).2⟩
  | step hmem hlink =>
    obtain ⟨l, hl, -⟩ := h.unbound p hp _ (hend _ _ hmem).1
    rw [hl] at hlink
    cases hlink

theorem OpenApart.disciplined (h : s.OpenApart rs) :
    s.Disciplined (rs.map fun p => recordOf p.1 p.2) where
  finite := by
    intro t ht
    have hopen : ∀ v ∈ t.vars, ∃ l, s.state v = .unbound l := by
      intro v hv
      obtain ⟨k, hk⟩ := Ty.exists_uses hv .type
      obtain ⟨⟨l, hl, -⟩, -⟩ := h.usedIn ⟨t, ht, .here hk⟩
      exact ⟨l, hl⟩
    refine .intro ?_ ?_ <;> intro v hv <;> obtain ⟨l, hl⟩ := hopen v hv
    · exact lt_size_of_unlinked (by simp [hl])
    · simp [hl]
  ready := by
    intro v k hv
    obtain ⟨⟨l, hl, hvalid⟩, -⟩ := h.usedIn hv
    rw [hl]
    exact hvalid
  kinds := by
    rintro v ⟨htype, -⟩
    cases (h.usedIn htype).2
  noRepeat := by
    intro x hx fs e hfields
    obtain ⟨p, hp, rfl, -⟩ := h.fields_inv hx hfields
    simpa [Function.comp_def] using h.nodup p hp
  shared := by
    intro x y fs gs v hx hy hfieldsx hfieldsy
    obtain ⟨p, hp, rfl, hpe⟩ := h.fields_inv hx hfieldsx
    obtain ⟨q, hq, rfl, hqe⟩ := h.fields_inv hy hfieldsy
    obtain rfl := h.apart p hp q hq v hpe.symm hqe.symm
    refine ⟨rfl, ?_⟩
    intro l t u ht hu
    rw [ht] at hu
    cases hu
    obtain ⟨f, -, hf⟩ := List.mem_map.mp (LabelMap.mem_of_lookup ht)
    rw [← (Prod.mk.inj hf).2]
    exact same_const s f.2

end Records

/-! ## Two open records -/

/-- Two unbound variables. -/
def twoOpen : Store := { cells := #[⟨0, .unbound 1⟩, ⟨1, .unbound 1⟩] }

/-- An open record with the field `x`. -/
def withX : Ty := .record .plain (.rowExtend .plain [("x", .int)] (.var 0))

/-- An open record with the field `y`. -/
def withY : Ty := .record .plain (.rowExtend .plain [("y", .bool)] (.var 1))

theorem twoOpen_state : ∀ v < 2, twoOpen.state v = .unbound 1 := by decide

theorem twoOpen_unlinked {v : Var} (hv : v < 2) : ∀ t, twoOpen.state v ≠ .linked t := by
  simp [twoOpen_state v hv]

theorem withXY_openApart :
    twoOpen.OpenApart [([("x", "int")], .flexible 0), ([("y", "bool")], .flexible 1)] where
  unbound := by
    simp only [List.forall_mem_cons, RowEnd.flexible.injEq, forall_eq']
    have hvalid : Level.Valid 1 := ⟨by decide, by decide⟩
    exact ⟨⟨1, rfl, hvalid⟩, ⟨1, rfl, hvalid⟩, nofun⟩
  nodup := by decide
  apart := by simp

theorem withX_fields : twoOpen.Fields withX [("x", .int)] (.flexible 0) :=
  withXY_openApart.fields List.mem_cons_self

theorem withY_fields : twoOpen.Fields withY [("y", .bool)] (.flexible 1) :=
  withXY_openApart.fields (List.mem_cons_of_mem _ List.mem_cons_self)

theorem partOf_twoOpen (h : twoOpen.PartOf [withX, withY] x) :
    x = withX ∨ x = withY ∨ ∃ name, x = Ty.const name := by
  rcases withXY_openApart.part h with ⟨p, hp, rfl⟩ | hconst
  · rcases List.mem_pair.mp hp with rfl | rfl
    · exact Or.inl rfl
    · exact Or.inr (Or.inl rfl)
  · exact Or.inr (Or.inr hconst)

theorem fields_twoOpen (h : twoOpen.PartOf [withX, withY] x) {fs : List (String × Ty)} {e : RowEnd}
    (hfields : twoOpen.Fields x fs e) :
    (fs, e) = ([("x", Ty.int)], .flexible 0) ∨ (fs, e) = ([("y", Ty.bool)], .flexible 1) := by
  obtain ⟨p, hp, rfl, rfl⟩ := withXY_openApart.fields_inv h hfields
  rcases List.mem_pair.mp hp with rfl | rfl
  · exact Or.inl rfl
  · exact Or.inr rfl

theorem twoOpen_disciplined : twoOpen.Disciplined [withX, withY] := withXY_openApart.disciplined

/-! ## Soundness -/

/-- Types that were unified are the same once links are followed: they are finite, and agree
in type constructors and their arguments, function and tuple types, and in the labels, fields
and ends of records. -/
theorem unify_sound {a b : Ty} (h : s.Disciplined [a, b]) (hrun : unify a b s = (.ok (), s')) :
    s'.Resolvable a ∧ s'.Resolvable b ∧ (s'.resolve a).Same (s'.resolve b) := by
  obtain ⟨kind, htidy⟩ := h.tidy
  have ha : s.PartOf [a, b] a := ⟨a, by simp, .refl⟩
  have hb : s.PartOf [a, b] b := ⟨b, by simp, .refl⟩
  have hdue : Due kind {x | s.PartOf [a, b] x} (fun _ _ => True) s a b := ⟨htidy, ha, hb, trivial⟩
  obtain ⟨-, hunified⟩ := hdue.course_unify descends_true
  rw [hrun] at hunified
  have hunified := hunified rfl
  have hfinal := hunified.tidy
  have hequal : s'.Equal a b := hunified.equal (a, b) List.mem_cons_self
  exact ⟨hfinal.resolvable a ha, hfinal.resolvable b hb,
    hequal.same (hfinal.resolvable a ha) (hfinal.resolvable b hb) (hfinal.noRepeats ha)
      (hfinal.noRepeats hb)⟩

theorem unify_sound_twoOpen :
    twoOpen.Disciplined [withX, withY] ∧ (unify withX withY twoOpen).1 = .ok () ∧
      ((unify withX withY twoOpen).2.resolve withX).Same
        ((unify withX withY twoOpen).2.resolve withY) :=
  ⟨twoOpen_disciplined, rfl, (unify_sound twoOpen_disciplined (Prod.ext rfl rfl)).2.2⟩

end Typecase.Store
