import Typecase.Match.Compile
set_option autoImplicit false

/-!
# What a witness says

A witness says of a thing which constructor or literal it is, how many components it
has, and what its parts are.  It says so of a value, of the type of a value, or of the
place where a branch of a decision tree looks.  A view says what can be seen of such
things, and a witness describes a thing if all that it says can be seen there.

A witness is put together from the facts of a branch.  The branch finds shapes and tags
at paths.  If no path is looked at twice, the witness describes the branch; it then
describes everything that the branch agrees with.
-/

namespace Typecase

/-- What can be seen of things with parts. -/
structure View (X : Type) where
  /-- A step leads from a thing to a part of it. -/
  step : X → Step → X → Prop
  /-- The thing is a tuple with the given number of components. -/
  arity : X → Nat → Prop
  /-- The thing has a constructor or is a literal, written like this; a constructor may
  carry a value. -/
  head : X → String → Bool → Prop

namespace View

variable {X : Type} (V : View X)

/-- A step leads to one part only. -/
def Functional : Prop := ∀ x step y z, V.step x step y → V.step x step z → y = z

/-- A path leads from a thing to a part of it. -/
def At (x : X) : Path → X → Prop
  | [], y => y = x
  | step :: path, y => ∃ z, V.step x step z ∧ At z path y

/-- Related things of two views: the second shows as much as the first. -/
structure Carries {Y : Type} (V' : View Y) (R : X → Y → Prop) : Prop where
  step : ∀ {x y step x'}, R x y → V.step x step x' → ∃ y', V'.step y step y' ∧ R x' y'
  arity : ∀ {x y n}, R x y → V.arity x n → V'.arity y n
  head : ∀ {x y head hasArg}, R x y → head ≠ "" → V.head x head hasArg → V'.head y head hasArg

variable {V}

theorem at_snoc {x y z : X} {path : Path} {step : Step} (h : V.At x path y)
    (hstep : V.step y step z) : V.At x (path ++ [step]) z := by
  induction path generalizing x with
  | nil =>
    obtain rfl : y = x := h
    exact ⟨z, hstep, rfl⟩
  | cons first path ih =>
    obtain ⟨x', hx', h⟩ := h
    exact ⟨x', hx', ih h⟩

theorem Functional.at_unique (hV : V.Functional) {x y z : X} {path : Path} (hy : V.At x path y)
    (hz : V.At x path z) : y = z := by
  induction path generalizing x with
  | nil => exact Eq.trans hy (Eq.symm hz)
  | cons step path ih =>
    obtain ⟨y', hy', hy⟩ := hy
    obtain ⟨z', hz', hz⟩ := hz
    obtain rfl := hV x step y' z' hy' hz'
    exact ih hy hz

end View

namespace Witness

variable {X : Type} (V : View X)

mutual

/-- All that a witness says of a thing can be seen there.  Nothing is said where the
head or a list is empty. -/
def Describes : Witness → X → Prop
  | .mk head hasArg arg elems fields, x =>
    (head ≠ "" → V.head x head hasArg) ∧ DescribesArg head arg x ∧
      (elems ≠ [] → V.arity x elems.length) ∧ DescribesElems 0 elems x ∧ DescribesFields fields x

/-- A witness describes the value that the constructor with the given name carries. -/
def DescribesArg (head : String) : Option Witness → X → Prop
  | none, _ => True
  | some w, x => ∃ c y, (head ≠ "" → c.name = head) ∧ V.step x (.arg c) y ∧ Describes w y

/-- Witnesses describe the components from a place on. -/
def DescribesElems : Nat → List Witness → X → Prop
  | _, [], _ => True
  | i, w :: ws, x =>
    (∃ y, V.step x (.component i) y ∧ Describes w y) ∧ DescribesElems (i + 1) ws x

/-- Witnesses describe the fields with their labels. -/
def DescribesFields : List (String × Witness) → X → Prop
  | [], _ => True
  | (l, w) :: fs, x => (∃ y, V.step x (.field l) y ∧ Describes w y) ∧ DescribesFields fs x

end

variable {V}

theorem describes_blank (x : X) : Describes V blank x := by
  simp [blank, Describes, DescribesArg, DescribesElems, DescribesFields]

/-! ## Two views -/

section Carries

variable {Y : Type} {V' : View Y} {R : X → Y → Prop} (hR : V.Carries V' R)
include hR

mutual

/-- What is said of a thing is also said of a thing that shows as much. -/
theorem Describes.carry {x : X} {y : Y} (hxy : R x y) :
    ∀ w : Witness, Describes V w x → Describes V' w y
  | .mk head _ arg elems fields, ⟨hhead, harg, harity, helems, hfields⟩ =>
    ⟨fun hne => hR.head hxy hne (hhead hne), DescribesArg.carry hxy head arg harg,
      fun hne => hR.arity hxy (harity hne), DescribesElems.carry hxy 0 elems helems,
      DescribesFields.carry hxy fields hfields⟩

theorem DescribesArg.carry {x : X} {y : Y} (hxy : R x y) (head : String) :
    ∀ arg : Option Witness, DescribesArg V head arg x → DescribesArg V' head arg y
  | none, _ => trivial
  | some w, ⟨c, x', hc, hx', hw⟩ => by
    obtain ⟨y', hy', hxy'⟩ := hR.step hxy hx'
    exact ⟨c, y', hc, hy', Describes.carry hxy' w hw⟩

theorem DescribesElems.carry {x : X} {y : Y} (hxy : R x y) (i : Nat) :
    ∀ ws : List Witness, DescribesElems V i ws x → DescribesElems V' i ws y
  | [], _ => trivial
  | w :: ws, ⟨⟨x', hx', hw⟩, hws⟩ => by
    obtain ⟨y', hy', hxy'⟩ := hR.step hxy hx'
    exact ⟨⟨y', hy', Describes.carry hxy' w hw⟩, DescribesElems.carry hxy (i + 1) ws hws⟩

theorem DescribesFields.carry {x : X} {y : Y} (hxy : R x y) :
    ∀ fs : List (String × Witness), DescribesFields V fs x → DescribesFields V' fs y
  | [], _ => trivial
  | (l, w) :: fs, ⟨⟨x', hx', hw⟩, hfs⟩ => by
    obtain ⟨y', hy', hxy'⟩ := hR.step hxy hx'
    exact ⟨⟨y', hy', Describes.carry hxy' w hw⟩, DescribesFields.carry hxy fs hfs⟩

end

end Carries

/-! ## Changing a part -/

theorem describesElems_replicate {x : X} {i n : Nat}
    (h : ∀ j, i ≤ j → j < i + n → ∃ y, V.step x (.component j) y) :
    DescribesElems V i (List.replicate n blank) x := by
  induction n generalizing i with
  | zero => trivial
  | succ n ih =>
    obtain ⟨y, hy⟩ := h i (Nat.le_refl i) (by omega)
    exact ⟨⟨y, hy, describes_blank y⟩, ih fun j hj hlt => h j (by omega) (by omega)⟩

theorem describesFields_blank {x : X} {ls : List String}
    (h : ∀ l ∈ ls, ∃ y, V.step x (.field l) y) : DescribesFields V (ls.map (·, blank)) x := by
  induction ls with
  | nil => trivial
  | cons l ls ih =>
    obtain ⟨y, hy⟩ := h l List.mem_cons_self
    exact ⟨⟨y, hy, describes_blank y⟩, ih fun k hk => h k (List.mem_cons_of_mem l hk)⟩

theorem describesFields_append {x : X} {fs gs : List (String × Witness)}
    (hfs : DescribesFields V fs x) (hgs : DescribesFields V gs x) :
    DescribesFields V (fs ++ gs) x := by
  induction fs with
  | nil => exact hgs
  | cons f fs ih => exact ⟨hfs.1, ih hfs.2⟩

variable {f : Witness → Option Witness}

/-- A component that exists can be changed. -/
theorem modifyElem_describes {x : X} {i j : Nat} {ws : List Witness}
    (hws : DescribesElems V j ws x) (hi : i < ws.length)
    (hf : ∀ y w, V.step x (.component (j + i)) y → Describes V w y →
      ∃ w', f w = some w' ∧ Describes V w' y) :
    ∃ ws', modifyElem f i ws = some ws' ∧ ws'.length = ws.length ∧ DescribesElems V j ws' x := by
  induction ws generalizing i j with
  | nil => simp at hi
  | cons w ws ih =>
    obtain ⟨⟨y, hy, hw⟩, hws⟩ := hws
    cases i with
    | zero =>
      obtain ⟨w', hw', hdescribes⟩ := hf y w hy hw
      exact ⟨w' :: ws, by simp [modifyElem, hw'], rfl, ⟨y, hy, hdescribes⟩, hws⟩
    | succ i =>
      have hplace : j + (i + 1) = j + 1 + i := by omega
      rw [hplace] at hf
      obtain ⟨ws', hmodify, hlen, hws'⟩ := ih hws (by simpa using hi) hf
      exact ⟨w :: ws', by simp [modifyElem, hmodify], by simp [hlen], ⟨y, hy, hw⟩, hws'⟩

theorem modifyField_describes {x : X} {label : String} {fs : List (String × Witness)}
    (hfs : DescribesFields V fs x)
    (hf : ∀ y w, V.step x (.field label) y → Describes V w y →
      ∃ w', f w = some w' ∧ Describes V w' y) :
    ∃ fs', modifyField f label fs = some fs' ∧ DescribesFields V fs' x := by
  induction fs with
  | nil => exact ⟨[], rfl, trivial⟩
  | cons e fs ih =>
    obtain ⟨l, w⟩ := e
    obtain ⟨⟨y, hy, hw⟩, hfs⟩ := hfs
    by_cases hl : l = label
    · subst hl
      obtain ⟨w', hw', hdescribes⟩ := hf y w hy hw
      exact ⟨(l, w') :: fs, by simp [modifyField, hw'], ⟨y, hy, hdescribes⟩, hfs⟩
    · obtain ⟨fs', hmodify, hfs'⟩ := ih hfs
      exact ⟨(l, w) :: fs', by simp [modifyField, hl, hmodify], ⟨y, hy, hw⟩, hfs'⟩

end Witness

namespace Match

/-! ## Branches -/

/-- What is found out at a path on the way down a branch. -/
inductive Finding where
  /-- The value there has components. -/
  | opened (path : Path) (shape : Shape)
  /-- The value there has a tag. -/
  | found (path : Path) (tag : Tag)
  /-- The value there has none of the tags. -/
  | missed (path : Path) (tags : List Tag)

namespace Finding

/-- Where something was found out. -/
def path : Finding → Path
  | opened path _ | found path _ | missed path _ => path

/-- The fact that is kept for the witness.  Shapes are kept elsewhere. -/
def fact? : Finding → Option Fact
  | opened _ _ => none
  | found path tag => some ⟨path, tag.render, tag.hasArg⟩
  | missed path tags => some ⟨path, (missingHead tags).1, (missingHead tags).2⟩

/-- The shapes that are known, with that of an expansion. -/
def note (shapes : LabelMap Shape) : Finding → LabelMap Shape
  | opened path sh => LabelMap.set shapes path.render sh
  | found _ _ | missed _ _ => shapes

theorem path_of_fact? {e : Finding} {fact : Fact} (h : e.fact? = some fact) :
    fact.path = e.path := by
  cases e <;> simp_all [fact?, path] <;> simp [← h]

end Finding

/-- The findings of a branch show that there is a part behind a step. -/
def Leads (findings : List Finding) (path : Path) : Step → Prop
  | .component i => ∃ n, .opened path (.tuple n) ∈ findings ∧ i < n
  | .field l => ∃ ls, .opened path (.record ls) ∈ findings ∧ l ∈ ls
  | .arg c => .found path (.con c) ∈ findings ∧ c.hasArg = true

/-- What the findings of a branch show of the places where it looks. -/
def branchView (findings : List Finding) : View Path where
  step path step path' := path' = path ++ [step] ∧ Leads findings path step
  arity path n := .opened path (.tuple n) ∈ findings
  head path head hasArg := ∃ e ∈ findings, e.fact? = some ⟨path, head, hasArg⟩

/-- Every step of a path is shown by the findings. -/
def Grounded (findings : List Finding) (path : Path) : Prop :=
  ∀ before step after, path = before ++ step :: after → Leads findings before step

/-- No two findings are about one path. -/
def Unambiguous (findings : List Finding) : Prop :=
  ∀ e ∈ findings, ∀ e' ∈ findings, e.path = e'.path → e = e'

section Note

variable {findings : List Finding}

theorem grounded_nil : Grounded findings [] := by
  intro before step after h
  simp at h

theorem Grounded.snoc {path : Path} {step : Step} (h : Grounded findings path)
    (hstep : Leads findings path step) : Grounded findings (path ++ [step]) := by
  intro before step' after heq
  rcases List.eq_nil_or_concat after with rfl | ⟨after, last, rfl⟩
  · obtain ⟨rfl, hlast⟩ := List.append_inj' heq rfl
    cases hlast
    exact hstep
  · have hlast : path ++ [step] = (before ++ step' :: after) ++ [last] := by simpa using heq
    exact h before step' after (List.append_inj_left' hlast rfl)

/-- A constructor that was found is the head that was noted. -/
theorem Unambiguous.head (hunique : Unambiguous findings) {path : Path} {c : Con}
    (hc : .found path (.con c) ∈ findings) {head : String} {hasArg : Bool}
    (hhead : (branchView findings).head path head hasArg) : c.name = head := by
  obtain ⟨e, he, hfact⟩ := hhead
  obtain rfl := hunique _ hc e he (Finding.path_of_fact? hfact)
  cases hfact
  rfl

/-- A step turns each description of the part at a path into another one. -/
def Notes (findings : List Finding) (f : Witness → Option Witness) (path : Path) : Prop :=
  ∀ w, w.Describes (branchView findings) path →
    ∃ w', f w = some w' ∧ w'.Describes (branchView findings) path

variable {shapeAt : Path → Option Shape} (hunique : Unambiguous findings)
  (hshapes : ∀ path sh, .opened path sh ∈ findings → shapeAt path = some sh)
include hunique hshapes

section Step

variable {head : String} {hasArg : Bool} {before rest : Path}

theorem note_component {i : Nat} (hstep : Leads findings before (.component i))
    (hdeeper : Notes findings (Witness.note shapeAt head hasArg (before ++ [.component i]) rest)
      (before ++ [.component i])) :
    Notes findings (Witness.note shapeAt head hasArg before (.component i :: rest)) before := by
  rintro ⟨h, a, arg, elems, fields⟩ ⟨hh, harg, harity, helems, hfields⟩
  obtain ⟨n, hopened, hi⟩ := hstep
  -- a tuple that is laid out already has its components
  obtain ⟨laid, hlaid, hlen, hdescribes⟩ : ∃ laid,
      laid = (if elems.isEmpty then List.replicate (max n (i + 1)) Witness.blank else elems) ∧
      laid.length = n ∧ Witness.DescribesElems (branchView findings) 0 laid before := by
    refine ⟨_, rfl, ?_⟩
    cases elems with
    | nil =>
      have hmax : max n (i + 1) = n := by omega
      simp only [List.isEmpty_nil, if_true, hmax]
      refine ⟨by simp, Witness.describesElems_replicate ?_⟩
      intro j _ hj
      exact ⟨_, rfl, n, hopened, by omega⟩
    | cons w ws =>
      have hsame := hunique _ hopened _ (harity (by simp)) rfl
      simp only [Finding.opened.injEq, Shape.tuple.injEq, true_and] at hsame
      exact ⟨hsame.symm, helems⟩
  obtain ⟨elems', hmodify, hlen', hdescribes'⟩ := Witness.modifyElem_describes
    (f := Witness.note shapeAt head hasArg (before ++ [.component i]) rest)
    hdescribes (hlen ▸ hi) (by
      rintro y w ⟨rfl, -⟩ hw
      rw [Nat.zero_add] at hw ⊢
      exact hdeeper w hw)
  refine ⟨.mk h a arg elems' fields, ?_, hh, harg, ?_, hdescribes', hfields⟩
  · simp only [Witness.note, hshapes _ _ hopened, ← hlaid, hmodify, Option.map_some]
  · intro _
    rw [hlen', hlen]
    exact hopened

omit hunique in
theorem note_field {label : String} (hstep : Leads findings before (.field label))
    (hdeeper : Notes findings (Witness.note shapeAt head hasArg (before ++ [.field label]) rest)
      (before ++ [.field label])) :
    Notes findings (Witness.note shapeAt head hasArg before (.field label :: rest)) before := by
  rintro ⟨h, a, arg, elems, fields⟩ ⟨hh, harg, harity, helems, hfields⟩
  obtain ⟨ls, hopened, hl⟩ := hstep
  have hparts : ∀ l ∈ ls, ∃ y, (branchView findings).step before (.field l) y :=
    fun l hl => ⟨_, rfl, ls, hopened, hl⟩
  obtain ⟨laid, hlaid, hdescribes⟩ : ∃ laid,
      laid = (if fields.isEmpty then ls.map (·, Witness.blank) else fields) ∧
      Witness.DescribesFields (branchView findings) laid before := by
    refine ⟨_, rfl, ?_⟩
    split
    · exact Witness.describesFields_blank hparts
    · exact hfields
  obtain ⟨whole, hwhole, hdescribes⟩ : ∃ whole,
      whole = (if laid.any (·.1 == label) then laid else laid ++ [(label, Witness.blank)]) ∧
      Witness.DescribesFields (branchView findings) whole before := by
    refine ⟨_, rfl, ?_⟩
    split
    · exact hdescribes
    · obtain ⟨y, hy⟩ := hparts label hl
      exact Witness.describesFields_append hdescribes
        ⟨⟨y, hy, Witness.describes_blank y⟩, trivial⟩
  obtain ⟨fields', hmodify, hdescribes'⟩ := Witness.modifyField_describes
    (f := Witness.note shapeAt head hasArg (before ++ [.field label]) rest)
    hdescribes (by
      rintro y w ⟨rfl, -⟩ hw
      exact hdeeper w hw)
  refine ⟨.mk h a arg elems fields', ?_, hh, harg, harity, helems, hdescribes'⟩
  simp only [Witness.note, hshapes _ _ hopened, ← hlaid, ← hwhole, hmodify, Option.map_some]

omit hshapes in
theorem note_arg {c : Con} (hstep : Leads findings before (.arg c))
    (hdeeper : Notes findings (Witness.note shapeAt head hasArg (before ++ [.arg c]) rest)
      (before ++ [.arg c])) :
    Notes findings (Witness.note shapeAt head hasArg before (.arg c :: rest)) before := by
  rintro ⟨h, a, arg, elems, fields⟩ ⟨hh, harg, hothers⟩
  obtain ⟨hfound, hc⟩ := hstep
  have hpart : (Witness.argOrBlank arg).Describes (branchView findings) (before ++ [.arg c]) := by
    cases arg with
    | none => exact Witness.describes_blank _
    | some w =>
      obtain ⟨c', path, -, ⟨rfl, hfound', -⟩, hw⟩ := harg
      have hsame := hunique _ hfound _ hfound' rfl
      simp only [Finding.found.injEq, Tag.con.injEq, true_and] at hsame
      exact hsame ▸ hw
  obtain ⟨w', hw', hdescribes⟩ := hdeeper _ hpart
  refine ⟨.mk h a (some w') elems fields, ?_, hh, ?_, hothers⟩
  · simp only [Witness.note, hw', Option.map_some]
  · exact ⟨c, _, fun hne => hunique.head hfound (hh hne), ⟨rfl, hfound, hc⟩, hdescribes⟩

end Step

/-- A fact at a place that the branch looks at can be noted. -/
theorem note_describes {head : String} {hasArg : Bool} {rest before : Path}
    (hground : ∀ path step after, rest = path ++ step :: after →
      Leads findings (before ++ path) step)
    (hhead : head ≠ "" → (branchView findings).head (before ++ rest) head hasArg) :
    Notes findings (Witness.note shapeAt head hasArg before rest) before := by
  induction rest generalizing before with
  | nil =>
    rintro ⟨h, a, arg, elems, fields⟩ ⟨-, harg, hothers⟩
    rw [List.append_nil] at hhead
    refine ⟨_, rfl, hhead, ?_, hothers⟩
    cases arg with
    | none => trivial
    | some w =>
      obtain ⟨c, path, -, hstep, hw⟩ := harg
      exact ⟨c, path, fun hne => hunique.head hstep.2.1 (hhead hne), hstep, hw⟩
  | cons step rest ih =>
    have hstep : Leads findings before step := by simpa using hground [] step rest rfl
    have hdeeper : Notes findings (Witness.note shapeAt head hasArg (before ++ [step]) rest)
        (before ++ [step]) := by
      apply ih
      · intro path step' after heq
        simpa using hground (step :: path) step' after (by simp [heq])
      · simpa using hhead
    cases step with
    | component i => exact note_component hunique hshapes hstep hdeeper
    | field label => exact note_field hshapes hstep hdeeper
    | arg c => exact note_arg hunique hstep hdeeper

/-- The witness of the facts of a branch describes the branch. -/
theorem ofFacts_describes (hground : ∀ e ∈ findings, Grounded findings e.path) :
    ∃ w, Witness.ofFacts shapeAt (findings.filterMap Finding.fact?) = some w ∧
      w.Describes (branchView findings) [] := by
  have hfold : ∀ (facts : List Fact) (w : Witness),
      (∀ fact ∈ facts, ∃ e ∈ findings, e.fact? = some fact) →
      w.Describes (branchView findings) [] →
      ∃ w', facts.foldlM (fun w f => Witness.note shapeAt f.head f.hasArg [] f.path w) w = some w' ∧
        w'.Describes (branchView findings) [] := by
    intro facts
    induction facts with
    | nil => exact fun w _ hw => ⟨w, rfl, hw⟩
    | cons fact facts ih =>
      intro w hfacts hw
      obtain ⟨e, he, hfact⟩ := hfacts fact List.mem_cons_self
      have hpath := Finding.path_of_fact? hfact
      have hsteps : ∀ path step after, fact.path = path ++ step :: after →
          Leads findings ([] ++ path) step := by
        rw [hpath]
        exact hground e he
      obtain ⟨w₁, hnote, hw₁⟩ :=
        note_describes hunique hshapes hsteps (fun _ => ⟨e, he, hfact⟩) w hw
      obtain ⟨w₂, hrest, hw₂⟩ := ih w₁ (fun f hf => hfacts f (List.mem_cons_of_mem fact hf)) hw₁
      exact ⟨w₂, by simp [List.foldlM_cons, hnote, hrest], hw₂⟩
  apply hfold _ _ _ (Witness.describes_blank [])
  intro fact hfact
  exact List.mem_filterMap.mp hfact

end Note

/-! ## Agreement -/

/-- A finding holds of the thing at its path. -/
def Finding.Holds {X : Type} (V : View X) (x : X) : Finding → Prop
  | .opened _ (.tuple n) => V.arity x n ∧ ∀ i < n, ∃ y, V.step x (.component i) y
  | .opened _ (.record ls) => ∀ l ∈ ls, ∃ y, V.step x (.field l) y
  | .found _ tag => V.head x tag.render tag.hasArg ∧
      ∀ c, tag = .con c → c.hasArg = true → ∃ y, V.step x (.arg c) y
  | .missed _ tags =>
    (missingHead tags).1 ≠ "" → V.head x (missingHead tags).1 (missingHead tags).2

/-- All findings of a branch hold of the parts of a thing. -/
def Agrees {X : Type} (V : View X) (x : X) (findings : List Finding) : Prop :=
  ∀ e ∈ findings, ∃ y, V.At x e.path y ∧ e.Holds V y

/-- What describes a branch describes everything that agrees with the branch. -/
theorem Agrees.describes {X : Type} {V : View X} (hV : V.Functional) {x : X}
    {findings : List Finding} (h : Agrees V x findings) {w : Witness}
    (hw : w.Describes (branchView findings) []) : w.Describes V x := by
  have hholds : ∀ e ∈ findings, ∀ y, V.At x e.path y → e.Holds V y := by
    intro e he y hy
    obtain ⟨y', hy', hholds⟩ := h e he
    exact hV.at_unique hy' hy ▸ hholds
  have hcarries : (branchView findings).Carries V fun path y => V.At x path y := by
    constructor
    · rintro path y step _ hy ⟨rfl, hstep⟩
      have hpart : ∃ z, V.step y step z := by
        cases step with
        | component i =>
          obtain ⟨n, hopened, hi⟩ := hstep
          exact (hholds _ hopened y hy).2 i hi
        | field l =>
          obtain ⟨ls, hopened, hl⟩ := hstep
          exact hholds _ hopened y hy l hl
        | arg c =>
          obtain ⟨hfound, hc⟩ := hstep
          exact (hholds _ hfound y hy).2 c rfl hc
      obtain ⟨z, hz⟩ := hpart
      exact ⟨z, hz, View.at_snoc hy hz⟩
    · intro path y n hy hopened
      exact (hholds _ hopened y hy).1
    · rintro path y head hasArg hy hne ⟨e, he, hfact⟩
      cases e with
      | opened path shape => cases hfact
      | found path tag =>
        cases hfact
        exact (hholds _ he y hy).1
      | missed path tags =>
        cases hfact
        exact hholds _ he y hy hne
  have hroot : V.At x [] x := rfl
  exact Witness.Describes.carry hcarries hroot w hw

end Match

end Typecase
