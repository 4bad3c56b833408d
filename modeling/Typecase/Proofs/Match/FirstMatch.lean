import Typecase.Proofs.Match.Correct
import Typecase.Proofs.Match.Failures
set_option autoImplicit false

/-!
# First match

Compiling clauses that are well typed against one type succeeds if no label and no constructor
name holds a dot, and the tree selects the first clause that takes a value.  The verdicts that
go with the tree are exact: it is called exhaustive exactly if the unguarded clauses accept all
values, and a clause is called unreachable exactly if no value selects it.

With dots in labels, two parts of the scrutinee may be confused.  Then an example of the missing
values may not be put together, and the compiler breaks down.
-/

namespace Typecase.Match

variable {α : Type} {clauses : List (Clause α)} {v : Val} {guard : Nat → Bool} {i : Nat}

/-- Clauses that may be matched against the values of a type. -/
structure WellTyped (Δ : Signature) (clauses : List (Clause α)) (τ : Tree) : Prop where
  nonempty : clauses ≠ []
  given : ∀ c ∈ clauses, c.pattern ≠ .omitted
  admits : ∀ c ∈ clauses, Δ.Admits c.pattern τ

theorem mem_ofClauses {r : Row α} (h : r ∈ (Matrix.ofClauses clauses).rows) :
    ∃ c ∈ clauses, r.patterns = [c.pattern] := by
  obtain ⟨⟨c, i⟩, hmem, rfl⟩ := List.mem_map.mp h
  exact ⟨c, List.fst_mem_of_mem_zipIdx hmem, rfl⟩

theorem WellTyped.matrix {Δ : Signature} {τ : Tree} (h : WellTyped Δ clauses τ) :
    (Matrix.ofClauses clauses).Typed Δ [τ] := by
  refine ⟨rfl, ?_⟩
  intro r hr
  obtain ⟨c, hc, hpatterns⟩ := mem_ofClauses hr
  rw [hpatterns]
  exact .cons (h.admits c hc) .nil

theorem weight_le_size (m : Matrix α) : m.weight ≤ m.size + m.rows.length := by
  rw [Matrix.size_eq]
  unfold Matrix.weight
  induction m.rows with
  | nil => simp
  | cons r rows ih =>
    have htests : (r.patterns.map Pattern.tests).sum ≤ Pattern.sizeList r.patterns := by
      have hle := Pattern.weighList_le_size (Nat.le_refl (1 + 0)) r.patterns
      rwa [Pattern.weighList_eq] at hle
    simp only [List.map_cons, List.sum_cons, List.length_cons]
    omega

theorem weight_ofClauses_lt (clauses : List (Clause α)) : (Matrix.ofClauses clauses).weight <
    (Matrix.ofClauses clauses).size + clauses.length + 1 := by
  have hle := weight_le_size (Matrix.ofClauses clauses)
  have hlen : (Matrix.ofClauses clauses).rows.length = clauses.length := by
    simp [Matrix.ofClauses]
  omega

/-- Compilation of clauses with patterns is compilation of their matrix. -/
theorem compile_eq (s : Store) (t : Ty) (hne : clauses ≠ [])
    (hgiven : ∀ c ∈ clauses, c.pattern ≠ .omitted) :
    ∃ st, st.witnesses = [] ∧ compile s clauses (some t) =
      (compileAt ((Matrix.ofClauses clauses).size + clauses.length + 1) []
        (Matrix.ofClauses clauses) st) >>= fun e => .ok ⟨e.1, clauses.length, e.2.witnesses⟩ := by
  have hempty : clauses.isEmpty = false := by simpa using hne
  unfold Match.compile
  simp only [hempty, StateT.run, Bool.false_eq_true, if_false]
  split
  · rename_i i hi
    obtain ⟨hlt, homitted, -⟩ := List.findIdx?_eq_some_iff_getElem.mp hi
    have hgiven := hgiven clauses[i] (List.getElem_mem hlt)
    split at homitted
    · exact absurd ‹_› hgiven
    · cases homitted
  · exact ⟨_, rfl, rfl⟩

theorem rect_ofClauses (clauses : List (Clause α)) : (Matrix.ofClauses clauses).Rect := by
  intro r hr
  obtain ⟨c, -, hpatterns⟩ := mem_ofClauses hr
  rw [hpatterns]
  rfl

theorem clear_ofClauses (hdots : ∀ c ∈ clauses, c.pattern.Dotless) :
    Clear (Matrix.ofClauses clauses) where
  rect := rect_ofClauses clauses
  apart := List.pairwise_singleton _ _
  paths p hp := by
    rw [List.mem_singleton.mp hp]
    exact Path.dotless_nil
  rows r hr p hp := by
    obtain ⟨c, hc, hpatterns⟩ := mem_ofClauses hr
    rw [hpatterns, List.mem_singleton] at hp
    exact hp ▸ hdots c hc

/-- Compilation succeeds.  It leaves an example for every branch that fails, and each of them
describes its branch. -/
def Explained (s : Store) (t : Ty) (clauses : List (Clause α)) : Prop :=
  ∃ r, Match.compile s clauses (some t) = .ok r ∧ r.clauses = clauses.length ∧
    Compiled (Matrix.ofClauses clauses) r.tree ∧ (r.witnesses ≠ [] ↔ r.exhaustive = false) ∧
    ∀ w ∈ r.witnesses, ∃ findings, Fails (Matrix.ofClauses clauses) findings ∧
      w.Describes (branchView findings) []

section Compilable

variable {G : Matrix α → Prop} (hG : Compilable G) (hm : G (Matrix.ofClauses clauses))
  (hne : clauses ≠ []) (hgiven : ∀ c ∈ clauses, c.pattern ≠ .omitted)
include hG hm hne hgiven

theorem Compilable.describes (hdots : ∀ c ∈ clauses, c.pattern.Dotless) (s : Store) (t : Ty) :
    Explained s t clauses := by
  obtain ⟨st, hempty, hst⟩ := compile_eq s t hne hgiven
  obtain ⟨d, st', new, hd, hnew, hiff, hdescribes⟩ := compileAt_describes hG
    (clear_ofClauses hdots) hm rfl (weight_ofClauses_lt clauses) st
  rw [hempty, List.nil_append] at hnew
  refine ⟨⟨d, clauses.length, st'.witnesses⟩, by rw [hst, hd]; rfl, rfl,
    compileAt_compiled (rect_ofClauses clauses) (weight_ofClauses_lt clauses) hd, ?_, ?_⟩
  · rw [hnew, hiff, Result.exhaustive, Bool.not_eq_false']
  · intro w hw
    exact hdescribes w (hnew ▸ hw)

/-- Compilation comes to the tree of the matrix.  Only if the tree can fail and there are dots, it
may break down. -/
theorem Compilable.compile (s : Store) (t : Ty) :
    ∃ d, Compiled (Matrix.ofClauses clauses) d ∧
      ((∃ r, Match.compile s clauses (some t) = .ok r ∧ r.clauses = clauses.length ∧ r.tree = d) ∨
        Match.compile s clauses (some t) = .error .outOfRange ∧ d.canFail = true ∧
          ∃ c ∈ clauses, ¬ c.pattern.Dotless) := by
  by_cases hdots : ∀ c ∈ clauses, c.pattern.Dotless
  · obtain ⟨r, hr, hlen, htree, -⟩ := hG.describes hm hne hgiven hdots s t
    exact ⟨r.tree, htree, .inl ⟨r, hr, hlen, rfl⟩⟩
  · obtain ⟨st, -, hst⟩ := compile_eq s t hne hgiven
    obtain ⟨d, htree, hcomes⟩ := hG.compileAt hm (weight_ofClauses_lt clauses)
    refine ⟨d, htree, ?_⟩
    rw [hst]
    rcases hcomes [] st with ⟨st', hd⟩ | ⟨herror, hfail⟩
    · rw [hd]
      exact .inl ⟨⟨d, clauses.length, st'.witnesses⟩, rfl, rfl, rfl⟩
    · rw [herror]
      exact .inr ⟨rfl, hfail, by simpa using hdots⟩

end Compilable

theorem WellTyped.describes {Δ : Signature} {τ : Tree} (h : WellTyped Δ clauses τ)
    (hdots : ∀ c ∈ clauses, c.pattern.Dotless) (s : Store) (t : Ty) : Explained s t clauses :=
  (compilable_typed Δ).describes ⟨[τ], h.matrix⟩ h.nonempty h.given hdots s t

/-! ## Hits of clauses -/

/-- Whether a clause, given with its index, takes a value. -/
def takes (guard : Nat → Bool) (v : Val) (e : Clause α × Nat) : Bool :=
  e.1.pattern.accepts v && (!e.1.guarded || guard e.2)

/-- The first hit of a list of clauses, found in the list itself. -/
theorem firstHit_ofClauses (clauses : List (Clause α)) (guard : Nat → Bool) (v : Val) :
    firstHit guard (hits (Matrix.ofClauses clauses).rows [v]) =
      (clauses.zipIdx.find? (takes guard v)).map (·.2) := by
  unfold firstHit hits Matrix.ofClauses
  rw [List.find?_map, List.filter_map, List.find?_map, List.find?_filter, Option.map_map,
    Option.map_map]
  simp only [Function.comp_def]
  congr 2
  funext e
  simp [Pattern.acceptsAll, takes]

theorem selects_iff :
    Selects clauses guard v i ↔
      ∃ h : i < clauses.zipIdx.length, takes guard v clauses.zipIdx[i] = true := by
  unfold Selects takes
  constructor
  · rintro ⟨c, hc, haccepts, hguard⟩
    obtain ⟨hlt, rfl⟩ := List.getElem?_eq_some_iff.mp hc
    refine ⟨by simpa using hlt, ?_⟩
    simpa [haccepts] using hguard
  · rintro ⟨hlt, h⟩
    have hlt : i < clauses.length := by simpa using hlt
    refine ⟨clauses[i], by simp [hlt], ?_⟩
    simpa using h

theorem firstHit_eq_some_iff : firstHit guard (hits (Matrix.ofClauses clauses).rows [v]) = some i ↔
      IsLeast {j | Selects clauses guard v j} i := by
  rw [firstHit_ofClauses, Option.map_eq_some_iff]
  constructor
  · rintro ⟨e, he, rfl⟩
    obtain ⟨htakes, j, hj, rfl, hbefore⟩ := List.find?_eq_some_iff_getElem.mp he
    have hidx : (clauses.zipIdx[j]).2 = j := by simp
    rw [hidx]
    refine ⟨selects_iff.mpr ⟨hj, htakes⟩, ?_⟩
    intro k hk
    obtain ⟨hlt, htakes⟩ := selects_iff.mp hk
    by_contra hkj
    have hfalse := hbefore k (Nat.lt_of_not_le hkj)
    rw [htakes] at hfalse
    cases hfalse
  · rintro ⟨hi, hleast⟩
    obtain ⟨hlt, htakes⟩ := selects_iff.mp hi
    refine ⟨clauses.zipIdx[i], List.find?_eq_some_iff_getElem.mpr ⟨htakes, i, hlt, rfl, ?_⟩,
      by simp⟩
    intro j hj
    by_contra hnot
    have htakes : takes guard v clauses.zipIdx[j] = true := by simpa using hnot
    have hle : i ≤ j := hleast (selects_iff.mpr ⟨Nat.lt_trans hj hlt, htakes⟩)
    omega

theorem firstHit_eq_none_iff :
    firstHit guard (hits (Matrix.ofClauses clauses).rows [v]) = none ↔
      ∀ i, ¬ Selects clauses guard v i := by
  rw [firstHit_ofClauses, Option.map_eq_none_iff, List.find?_eq_none]
  constructor
  · intro h i hi
    obtain ⟨hlt, htakes⟩ := selects_iff.mp hi
    exact h _ (List.getElem_mem hlt) htakes
  · intro h e he htakes
    obtain ⟨i, hlt, rfl⟩ := List.mem_iff_getElem.mp he
    exact h i (selects_iff.mpr ⟨hlt, htakes⟩)

/-! ## Ends of the tree of clauses -/

section WellTyped

variable {Δ : Signature} {clauses : List (Clause α)} {τ : Tree}

/-- The walk through the tree of clauses finds the first hit. -/
theorem WellTyped.walk (h : WellTyped Δ clauses τ) {d : Decision}
    (hd : Compiled (Matrix.ofClauses clauses) d) {v : Val} (hv : Δ.HasType v τ)
    (guard : Nat → Bool) : ∃ o, d.walk guard v = some o ∧
      o.clause? = firstHit guard (hits (Matrix.ofClauses clauses).rows [v]) := by
  have hvs : Δ.HaveTypes [v] [τ] := ⟨hv, trivial⟩
  have hroot : Located v (Matrix.ofClauses clauses).paths [v] := .cons (Val.at?_nil v) .nil
  exact hd.walk h.matrix hvs hroot guard

/-- The ends of the tree of clauses are the first hits of the values of the type. -/
theorem WellTyped.ends_iff (h : WellTyped Δ clauses τ) (hτ : Δ.Inhabited τ)
    (hinfinite : ∀ k, {text | Δ.isConstant ⟨k, text⟩}.Infinite) {d : Decision}
    (hd : Compiled (Matrix.ofClauses clauses) d) {e : Option Nat} :
    d.Ends e ↔ ∃ v guard, Δ.HasType v τ ∧
      firstHit guard (hits (Matrix.ofClauses clauses).rows [v]) = e := by
  constructor
  · intro he
    obtain ⟨vs, hvs, hreaches⟩ := hd.reachable hinfinite h.matrix (by simpa using hτ) he
    obtain ⟨guard, hguard⟩ := reaches_iff.mp hreaches
    match vs, hvs with
    | [v], hvs => exact ⟨v, guard, hvs.1, hguard⟩
  · rintro ⟨v, guard, hv, rfl⟩
    obtain ⟨o, hwalk, ho⟩ := h.walk hd hv guard
    rw [← ho]
    exact Decision.ends_of_walk d hwalk

end WellTyped

/-! ## Optional integers

A signature with the datatype `option`, and clauses for `int option` at which the results
below are put to use. -/

/-- The datatype of optional values. -/
def optionDatatype : Datatype :=
  ⟨0, "option", [0], false, [⟨"NONE", 0, none⟩, ⟨"SOME", 1, some (.var 0)⟩]⟩

/-- A signature with the datatype of optional values and all literals. -/
def optionSignature : Signature where
  store := { cells := #[⟨0, .generic⟩] }
  datatype? name := if name = "option" then some optionDatatype else none
  carried _ := .lost
  isConstant _ := True
  numbered := by
    intro name d h
    split at h
    · cases h
      decide
    · cases h

def noneCon : Con := optionDatatype.con ⟨"NONE", 0, none⟩ false

def someCon : Con := optionDatatype.con ⟨"SOME", 1, some (.var 0)⟩ false

def intOption : Ty := .con .plain "option" [.int]

/-- The clauses `SOME 1 if …`, `SOME _`, `SOME 2` and `NONE`. -/
def optionClauses : List (Clause Unit) :=
  [⟨.con () someCon (some (.literal () ⟨.int, "1"⟩)), true⟩,
    ⟨.con () someCon (some (.wildcard ())), false⟩,
    ⟨.con () someCon (some (.literal () ⟨.int, "2"⟩)), false⟩,
    ⟨.con () noneCon none, false⟩]

theorem form_intOption : optionSignature.form (optionSignature.store.resolve intOption) =
    .closed [(noneCon, none), (someCon, some (.con "int" []))] := rfl

theorem form_int : optionSignature.form (.con "int" []) = .constant .int := rfl

theorem offers_noneCon :
    (optionSignature.form (optionSignature.store.resolve intOption)).Offers noneCon none := by
  simp [form_intOption, Form.Offers]

theorem offers_someCon :
    (optionSignature.form (optionSignature.store.resolve intOption)).Offers someCon
      (some (.con "int" [])) := by
  simp [form_intOption, Form.Offers]

theorem optionClauses_wellTyped :
    WellTyped optionSignature optionClauses (optionSignature.store.resolve intOption) := by
  refine ⟨by simp [optionClauses], ?_, ?_⟩
  · intro c hc
    simp only [optionClauses, List.mem_cons, List.not_mem_nil, or_false] at hc
    rcases hc with rfl | rfl | rfl | rfl <;> simp
  · intro c hc
    simp only [optionClauses, List.mem_cons, List.not_mem_nil, or_false] at hc
    rcases hc with rfl | rfl | rfl | rfl
    · exact ⟨_, offers_someCon, form_int, trivial⟩
    · exact ⟨_, offers_someCon, trivial⟩
    · exact ⟨_, offers_someCon, form_int, trivial⟩
    · exact ⟨_, offers_noneCon⟩

theorem intOption_inhabited :
    optionSignature.Inhabited (optionSignature.store.resolve intOption) := by
  intro σ hσ
  have hcases : σ = optionSignature.store.resolve intOption ∨ σ = .con "int" [] := by
    induction hσ with
    | refl => exact Or.inl rfl
    | tail _ hcomponent ih =>
      rcases ih with rfl | rfl
      · cases hcomponent with
        | elem hform | field hform => simp [form_intOption] at hform
        | arg hoffers =>
          simp only [form_intOption, Form.Offers, List.mem_cons, Prod.mk.injEq, reduceCtorEq,
            and_false, Option.some.injEq, List.not_mem_nil, or_false, false_or] at hoffers
          exact Or.inr hoffers.2
      · cases hcomponent with
        | elem hform | field hform => simp [form_int] at hform
        | arg hoffers => simp [form_int, Form.Offers] at hoffers
  rcases hcases with rfl | rfl
  · exact ⟨.con noneCon none, Or.inr offers_noneCon⟩
  · exact ⟨.literal ⟨.int, "0"⟩, Or.inr ⟨form_int, trivial⟩⟩

theorem int_inhabited : optionSignature.Inhabited (.con "int" []) :=
  intOption_inhabited.component (.arg offers_someCon)

theorem optionSignature_infinite (k : LiteralKind) :
    {text | optionSignature.isConstant ⟨k, text⟩}.Infinite := by
  have hstrings : Infinite String :=
    Infinite.of_injective String.ofList fun _ _ h => String.ofList_injective h
  exact Set.infinite_univ

/-! ## Labels with dots

In a record with the fields `a` and `a.b`, the field `b` of `a` and the field `a.b` have
the same path as text. -/

/-- The type of records `{a = {b = …}, l = …}`, with tuples of `n` and `k` integers. -/
def nestedType (l : String) (n k : Nat) : Ty :=
  .record .plain (.rowExtend .plain
    [("a", .record .plain (.rowExtend .plain [("b", .tuple .plain (.replicate n .int))] .rowEmpty)),
      (l, .tuple .plain (.replicate k .int))] .rowEmpty)

/-- The clause `{a = {b = inner}, l = (_, …, _)}`. -/
def nestedClauses (l : String) (inner : List (Pattern Unit)) (k : Nat) : List (Clause Unit) :=
  [⟨.record () [("a", .record () [("b", .tuple () inner)] false),
    (l, .tuple () (.replicate k (.wildcard ())))] false, false⟩]

theorem resolve_ints (s : Store) (n : Nat) (follow : Ty → Tree)
    (followRow : Ty → Option (LabelMap Tree × RowEnd)) :
    s.resolveListWith follow followRow (.replicate n .int) = .replicate n (.con "int" []) := by
  induction n with
  | zero => rfl
  | succ n ih =>
    rw [List.replicate_succ, Store.resolveListWith, ih]
    rfl

theorem resolve_nestedType (l : String) (n k : Nat) :
    optionSignature.store.resolve (nestedType l n k) =
      .record [("a", .record [("b", .tuple (.replicate n (.con "int" [])))] .rigid),
        (l, .tuple (.replicate k (.con "int" [])))] .rigid := by
  have hsize : optionSignature.store.size = 1 := rfl
  simp [Store.resolve, hsize, Store.resolveAt, Store.resolveWith, nestedType, Store.resolveRowWith,
    Store.resolveFieldsWith, LabelMap.extend, resolve_ints]

theorem nestedClauses_wellTyped {l : String} (hl : l ≠ "a") {inner : List (Pattern Unit)}
    (hinner : ∀ p ∈ inner, optionSignature.Admits p (.con "int" [])) (k : Nat) :
    WellTyped optionSignature (nestedClauses l inner k)
      (optionSignature.store.resolve (nestedType l inner.length k)) := by
  have hwilds : optionSignature.AdmitsAll (.replicate k (.wildcard () : Pattern Unit))
      (.replicate k (.con "int" [])) := by
    induction k with
    | zero => trivial
    | succ k ih => exact ⟨trivial, ih⟩
  have htuple : optionSignature.AdmitsAll inner (.replicate inner.length (.con "int" [])) := by
    induction inner with
    | nil => trivial
    | cons p inner ih =>
      exact ⟨hinner p List.mem_cons_self, ih fun q hq => hinner q (List.mem_cons_of_mem p hq)⟩
  refine ⟨by simp [nestedClauses], by simp [nestedClauses], ?_⟩
  intro c hc
  rw [List.mem_singleton.mp hc, resolve_nestedType]
  refine ⟨_, false, rfl, by simp [Ne.symm hl], ⟨⟨_, rfl, _, false, rfl, by simp, ?_, by simp⟩, ?_⟩,
    by simp⟩
  · exact ⟨⟨_, rfl, _, rfl, htuple⟩, trivial⟩
  · exact ⟨⟨.tuple (.replicate k (.con "int" [])),
      by simp [List.lookup_cons, beq_eq_false_iff_ne.mpr hl], _, rfl, hwilds⟩, trivial⟩

/-- The pattern `1`. -/
def one : Pattern Unit := .literal () ⟨.int, "1"⟩

theorem one_admits : optionSignature.Admits one (.con "int" []) := ⟨form_int, trivial⟩

/-- The clause `{a = {b = (1, _)}, l = (_, _, _)}` is well typed. -/
theorem shortNested_wellTyped {l : String} (hl : l ≠ "a") :
    WellTyped optionSignature (nestedClauses l [one, .wildcard ()] 3)
      (optionSignature.store.resolve (nestedType l 2 3)) :=
  nestedClauses_wellTyped hl (by simp [one_admits, Signature.Admits]) 3

/-- The clause `{a = {b = (1, _, 1)}, l = (_, _)}` is well typed. -/
theorem longNested_wellTyped {l : String} (hl : l ≠ "a") :
    WellTyped optionSignature (nestedClauses l [one, .wildcard (), one] 2)
      (optionSignature.store.resolve (nestedType l 3 2)) :=
  nestedClauses_wellTyped hl (by simp [one_admits, Signature.Admits]) 2

/-- The tuple `(0, …, 0)`. -/
def zeros (n : Nat) : Val := .tuple (.replicate n (.literal ⟨.int, "0"⟩))

theorem zeros_hasType (n : Nat) :
    optionSignature.HasType (zeros n) (.tuple (.replicate n (.con "int" []))) := by
  refine Or.inr ⟨_, rfl, ?_⟩
  induction n with
  | zero => trivial
  | succ n ih => exact ⟨Or.inr ⟨form_int, trivial⟩, ih⟩

/-- The record `{a = {b = (0, 0, 0)}, a.b = (0, 0)}`. -/
def nestedZeros : Val := .record [("a", .record [("b", zeros 3)]), ("a.b", zeros 2)]

theorem nestedZeros_hasType : optionSignature.HasType nestedZeros
    (optionSignature.store.resolve (nestedType "a.b" 3 2)) := by
  rw [resolve_nestedType]
  refine Or.inr ⟨_, _, rfl, ⟨Or.inr ⟨_, _, rfl, ⟨zeros_hasType 3, trivial⟩, by simp⟩, ?_⟩, by simp⟩
  exact ⟨zeros_hasType 2, trivial⟩

theorem nestedType_inhabited :
    optionSignature.Inhabited (optionSignature.store.resolve (nestedType "a.b" 3 2)) := by
  have htuple : ∀ n, optionSignature.Inhabited (.tuple (.replicate n (.con "int" []))) := by
    intro n
    refine Signature.inhabited_of_components ⟨_, zeros_hasType n⟩ fun σ hσ => ?_
    cases hσ with
    | elem hform hmem =>
      cases hform
      exact List.eq_of_mem_replicate hmem ▸ int_inhabited
    | field hform => cases hform
    | arg hoffers => exact absurd hoffers id
  refine Signature.inhabited_of_components ⟨_, nestedZeros_hasType⟩ fun σ hσ => ?_
  rw [resolve_nestedType] at hσ
  cases hσ with
  | elem hform => cases hform
  | arg hoffers => exact absurd hoffers id
  | @field _ _ l _ hform hl =>
    cases hform
    rw [List.lookup_cons] at hl
    split at hl
    · cases hl
      refine Signature.inhabited_of_components ⟨.record [("b", zeros 3)], ?_⟩ fun σ hσ => ?_
      · exact Or.inr ⟨_, _, rfl, ⟨zeros_hasType 3, trivial⟩, by simp⟩
      · cases hσ with
        | elem hform => cases hform
        | arg hoffers => exact absurd hoffers id
        | @field _ _ l _ hform hl =>
          cases hform
          rw [List.lookup_cons] at hl
          split at hl
          · cases hl
            exact htuple 3
          · cases hl
    · rw [List.lookup_cons] at hl
      split at hl
      · cases hl
        exact htuple 2
      · cases hl

/-! ## Compiled matches -/

/-- Compiling well typed clauses without dots in labels and constructor names succeeds.  The tree
leads every value to the first clause that takes it, and fails where there is none; no walk gets
stuck. -/
theorem compile_selects_first (Δ : Signature) (t : Ty) (clauses : List (Clause α))
    (h : WellTyped Δ clauses (Δ.store.resolve t)) (hdots : ∀ c ∈ clauses, c.pattern.Dotless) :
    ∃ r, compile Δ.store clauses (some t) = .ok r ∧
      ∀ v, Δ.HasType v (Δ.store.resolve t) → ∀ guard : Nat → Bool,
        (∃ i bindings, r.tree.walk guard v = some (.selected i bindings) ∧
          IsLeast {j | Selects clauses guard v j} i) ∨
        (r.tree.walk guard v = some .failed ∧ ∀ i, ¬ Selects clauses guard v i) := by
  obtain ⟨r, hr, -, htree, -⟩ := h.describes hdots Δ.store t
  refine ⟨r, hr, ?_⟩
  intro v hv guard
  obtain ⟨o, hwalk, ho⟩ := h.walk htree hv guard
  cases o with
  | selected i bindings => exact Or.inl ⟨i, bindings, hwalk, firstHit_eq_some_iff.mp ho.symm⟩
  | failed => exact Or.inr ⟨hwalk, firstHit_eq_none_iff.mp ho.symm⟩

theorem compile_selects_first_option :
    WellTyped optionSignature optionClauses (optionSignature.store.resolve intOption) ∧
    ∃ r, compile optionSignature.store optionClauses (some intOption) = .ok r ∧
      ∀ v, optionSignature.HasType v (optionSignature.store.resolve intOption) →
        ∀ guard : Nat → Bool,
        (∃ i bindings, r.tree.walk guard v = some (.selected i bindings) ∧
          IsLeast {j | Selects optionClauses guard v j} i) ∨
        (r.tree.walk guard v = some .failed ∧ ∀ i, ¬ Selects optionClauses guard v i) :=
  ⟨optionClauses_wellTyped, compile_selects_first _ _ _ optionClauses_wellTyped (by decide)⟩

/-- With dots, the compiler may break down on a well typed clause: it has no tree that leads
values to the clause. -/
theorem compile_breaks_on_dots :
    let clauses := nestedClauses "a.b" [one, .wildcard (), one] 2
    let t := nestedType "a.b" 3 2
    WellTyped optionSignature clauses (optionSignature.store.resolve t) ∧
      compile optionSignature.store clauses (some t) = .error .outOfRange :=
  ⟨longNested_wellTyped (by decide), rfl⟩

/-- No guards help a value that only guarded clauses accept. -/
theorem exists_guard_iff :
    (∃ guard, ∀ i, ¬ Selects clauses guard v i) ↔
      ∀ c ∈ clauses, c.pattern.accepts v = true → c.guarded = true := by
  constructor
  · rintro ⟨guard, hnone⟩ c hc haccepts
    obtain ⟨i, hi, rfl⟩ := List.mem_iff_getElem.mp hc
    by_contra hguarded
    exact hnone i ⟨clauses[i], by simp, haccepts, Or.inl (by simpa using hguarded)⟩
  · intro hguarded
    refine ⟨fun _ => false, ?_⟩
    rintro i ⟨c, hc, haccepts, hguard⟩
    have hc := hguarded c (List.mem_of_getElem? hc) haccepts
    simp [hc] at hguard

/-- Clauses without dots are called exhaustive exactly if every value is accepted by an unguarded
clause. -/
theorem exhaustive_iff (Δ : Signature) (t : Ty) (clauses : List (Clause α))
    (h : WellTyped Δ clauses (Δ.store.resolve t)) (ht : Δ.Inhabited (Δ.store.resolve t))
    (hinfinite : ∀ k, {text | Δ.isConstant ⟨k, text⟩}.Infinite)
    (hdots : ∀ c ∈ clauses, c.pattern.Dotless) :
    ∃ r, compile Δ.store clauses (some t) = .ok r ∧
      (r.exhaustive = true ↔ ∀ v, Δ.HasType v (Δ.store.resolve t) →
        ∃ c ∈ clauses, c.guarded = false ∧ c.pattern.accepts v = true) := by
  obtain ⟨r, hr, -, htree, -⟩ := h.describes hdots Δ.store t
  refine ⟨r, hr, ?_⟩
  have hends : r.tree.canFail = true ↔ _ := h.ends_iff ht hinfinite htree (e := none)
  rw [Result.exhaustive, Bool.not_eq_true', ← Bool.not_eq_true, hends]
  constructor
  · intro hnone v hv
    by_contra hleft
    have hguarded : ∀ c ∈ clauses, c.pattern.accepts v = true → c.guarded = true := by
      intro c hc haccepts
      by_contra hguarded
      exact hleft ⟨c, hc, by simpa using hguarded, haccepts⟩
    obtain ⟨guard, hguard⟩ := exists_guard_iff.mpr hguarded
    exact hnone ⟨v, guard, hv, firstHit_eq_none_iff.mpr hguard⟩
  · rintro hall ⟨v, guard, hv, hfirst⟩
    obtain ⟨c, hc, hguarded, haccepts⟩ := hall v hv
    have hc := exists_guard_iff.mp ⟨guard, firstHit_eq_none_iff.mp hfirst⟩ c hc haccepts
    simp [hguarded] at hc

theorem exhaustive_iff_option :
    optionSignature.Inhabited (optionSignature.store.resolve intOption) ∧
    ∃ r, compile optionSignature.store optionClauses (some intOption) = .ok r ∧
      (r.exhaustive = true ↔
        ∀ v, optionSignature.HasType v (optionSignature.store.resolve intOption) →
          ∃ c ∈ optionClauses, c.guarded = false ∧ c.pattern.accepts v = true) :=
  ⟨intOption_inhabited, exhaustive_iff _ _ _ optionClauses_wellTyped intOption_inhabited
    optionSignature_infinite (by decide)⟩

/-- With dots, there may be no verdict on a well typed clause, although it leaves out a value of a
type whose parts all have values. -/
theorem no_verdict_on_dots :
    let clauses := nestedClauses "a.b" [one, .wildcard (), one] 2
    let t := nestedType "a.b" 3 2
    WellTyped optionSignature clauses (optionSignature.store.resolve t) ∧
      optionSignature.Inhabited (optionSignature.store.resolve t) ∧
      (∀ k, {text | optionSignature.isConstant ⟨k, text⟩}.Infinite) ∧
      (∃ v, optionSignature.HasType v (optionSignature.store.resolve t) ∧
        ∀ c ∈ clauses, c.pattern.accepts v = false) ∧
      compile optionSignature.store clauses (some t) = .error .outOfRange :=
  ⟨longNested_wellTyped (by decide), nestedType_inhabited, optionSignature_infinite,
    ⟨nestedZeros, nestedZeros_hasType, by decide⟩, rfl⟩

/-- Some guards let a value select a clause exactly if the clause accepts it and no
unguarded clause before it does. -/
theorem exists_isLeast_iff :
    (∃ guard, IsLeast {j | Selects clauses guard v j} i) ↔
      ∃ c, clauses[i]? = some c ∧ c.pattern.accepts v = true ∧
        ¬ ∃ j < i, ∃ c', clauses[j]? = some c' ∧ c'.guarded = false ∧
          c'.pattern.accepts v = true := by
  constructor
  · rintro ⟨guard, ⟨c, hc, haccepts, -⟩, hleast⟩
    refine ⟨c, hc, haccepts, ?_⟩
    rintro ⟨j, hj, c', hc', hguarded, haccepts'⟩
    have hle : i ≤ j := hleast ⟨c', hc', haccepts', Or.inl hguarded⟩
    omega
  · rintro ⟨c, hc, haccepts, hnone⟩
    -- only the guard of the clause itself holds
    refine ⟨fun j => j = i, ⟨c, hc, haccepts, by simp⟩, ?_⟩
    rintro j ⟨c', hc', haccepts', hguard⟩
    by_contra hlt
    have hlt : j < i := Nat.lt_of_not_le hlt
    have hguarded : c'.guarded = false := by simpa [Nat.ne_of_lt hlt] using hguard
    exact hnone ⟨j, hlt, c', hc', hguarded, haccepts'⟩

/-- A clause of a list without dots is called unreachable exactly if no value and no guards select
it; in other words, if unguarded clauses before it accept all values that it accepts. -/
theorem mem_unreachable_iff (Δ : Signature) (t : Ty) (clauses : List (Clause α))
    (h : WellTyped Δ clauses (Δ.store.resolve t)) (ht : Δ.Inhabited (Δ.store.resolve t))
    (hinfinite : ∀ k, {text | Δ.isConstant ⟨k, text⟩}.Infinite)
    (hdots : ∀ c ∈ clauses, c.pattern.Dotless) :
    ∃ r, compile Δ.store clauses (some t) = .ok r ∧ ∀ i,
      (i ∈ r.unreachable ↔ i < clauses.length ∧ ¬ ∃ v guard, Δ.HasType v (Δ.store.resolve t) ∧
        IsLeast {j | Selects clauses guard v j} i) ∧
      (i ∈ r.unreachable ↔ ∃ c, clauses[i]? = some c ∧
        ∀ v, Δ.HasType v (Δ.store.resolve t) → c.pattern.accepts v = true →
          ∃ j < i, ∃ c', clauses[j]? = some c' ∧ c'.guarded = false ∧
            c'.pattern.accepts v = true) := by
  obtain ⟨r, hr, hlen, htree, -⟩ := h.describes hdots Δ.store t
  refine ⟨r, hr, ?_⟩
  intro i
  have hends : i ∈ r.tree.clauses ↔ _ := h.ends_iff ht hinfinite htree (e := some i)
  have hunreachable : i ∈ r.unreachable ↔ i < clauses.length ∧
      ¬ ∃ v guard, Δ.HasType v (Δ.store.resolve t) ∧
        IsLeast {j | Selects clauses guard v j} i := by
    simp only [← firstHit_eq_some_iff]
    rw [← hends, ← hlen]
    simp [Result.unreachable]
  refine ⟨hunreachable, hunreachable.trans ?_⟩
  constructor
  · rintro ⟨hlt, hnone⟩
    refine ⟨clauses[i], by simp [hlt], ?_⟩
    intro v hv haccepts
    by_contra hbefore
    obtain ⟨guard, hleast⟩ :=
      exists_isLeast_iff.mpr ⟨clauses[i], by simp [hlt], haccepts, hbefore⟩
    exact hnone ⟨v, guard, hv, hleast⟩
  · rintro ⟨c, hc, hbefore⟩
    refine ⟨(List.getElem?_eq_some_iff.mp hc).1, ?_⟩
    rintro ⟨v, guard, hv, hleast⟩
    obtain ⟨c', hc', haccepts, hnone⟩ := exists_isLeast_iff.mp ⟨guard, hleast⟩
    rw [hc] at hc'
    cases hc'
    exact hnone (hbefore v hv haccepts)

theorem mem_unreachable_iff_option :
    optionSignature.Inhabited (optionSignature.store.resolve intOption) ∧
    ∃ r, compile optionSignature.store optionClauses (some intOption) = .ok r ∧ ∀ i,
      (i ∈ r.unreachable ↔ i < optionClauses.length ∧
        ¬ ∃ v guard, optionSignature.HasType v (optionSignature.store.resolve intOption) ∧
          IsLeast {j | Selects optionClauses guard v j} i) ∧
      (i ∈ r.unreachable ↔ ∃ c, optionClauses[i]? = some c ∧
        ∀ v, optionSignature.HasType v (optionSignature.store.resolve intOption) →
          c.pattern.accepts v = true → ∃ j < i, ∃ c', optionClauses[j]? = some c' ∧
            c'.guarded = false ∧ c'.pattern.accepts v = true) :=
  ⟨intOption_inhabited, mem_unreachable_iff _ _ _ optionClauses_wellTyped intOption_inhabited
    optionSignature_infinite (by decide)⟩

/-- With dots, a clause that stands there twice may not be called unreachable the second time. -/
theorem repeated_unreported_on_dots :
    let clause := nestedClauses "a.b" [one, .wildcard (), one] 2
    let t := nestedType "a.b" 3 2
    WellTyped optionSignature (clause ++ clause) (optionSignature.store.resolve t) ∧
      optionSignature.Inhabited (optionSignature.store.resolve t) ∧
      (∀ k, {text | optionSignature.isConstant ⟨k, text⟩}.Infinite) ∧
      (clause ++ clause)[0]? = (clause ++ clause)[1]? ∧ (∀ c ∈ clause ++ clause, c.guarded = false) ∧
      compile optionSignature.store (clause ++ clause) (some t) = .error .outOfRange := by
  have h := longNested_wellTyped (show "a.b" ≠ "a" by decide)
  refine ⟨⟨by simp [nestedClauses], ?_, ?_⟩, nestedType_inhabited, optionSignature_infinite, rfl,
    by decide, rfl⟩
  · exact fun c hc => (List.mem_append.mp hc).elim (h.given c) (h.given c)
  · exact fun c hc => (List.mem_append.mp hc).elim (h.admits c) (h.admits c)

end Typecase.Match
