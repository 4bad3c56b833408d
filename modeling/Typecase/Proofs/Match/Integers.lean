import Typecase.Proofs.Match.Missing
import Typecase.Text.Integer
set_option autoImplicit false

/-!
# Clauses for integers

Integer literals are compared by their texts.  A clause counts as unreachable exactly if a clause
before it tests nothing or tests for the same text, and no example of what is left out is the text
of a clause.  If all literals are written like numerals, this comes to the same as a comparison of
integers; if an integer is written in two ways, it does not.
-/

namespace Typecase

namespace Pattern

variable {α : Type} {p q : Pattern α} {n : Int}

/-- The text of a literal; there is none where nothing is tested. -/
def text? : Pattern α → Option String
  | .literal _ l => some l.text
  | _ => none

/-- Whether a pattern is a wildcard, a variable or an integer. -/
def isIntegerTest : Pattern α → Bool
  | .wildcard _ | .var _ _ => true
  | .literal _ l => l.kind = .int && Text.isInteger l.text
  | _ => false

/-- Whether an integer is written like a numeral, without a plus sign or leading zeros. -/
def isPlain (p : Pattern α) : Bool :=
  p.text?.all fun text => toString (Text.toIntegerOrZero text) = text

/-- The pattern matches the integer `n`. -/
def Takes (p : Pattern α) (n : Int) : Prop :=
  ∀ text, p.text? = some text → Text.readInteger text = .exact n

theorem takes_of_text? (h : p.text? = none ∨ p.text? = q.text?) (hq : q.Takes n) : p.Takes n := by
  intro text htext
  rcases h with hnone | heq
  · rw [hnone] at htext
    cases htext
  · exact hq text (heq ▸ htext)

theorem exists_integer (h : p.isIntegerTest = true) {text : String} (htext : p.text? = some text) :
    ∃ n, p.Takes n := by
  cases p with
  | literal note l =>
    simp only [isIntegerTest, Text.isInteger, Bool.and_eq_true] at h
    split at h
    · rename_i n hn
      exact ⟨n, fun _ heq => Option.some.inj heq ▸ hn⟩
    · cases h.2
  | _ => cases htext

theorem accepts_integer (h : p.isIntegerTest = true) {text : String} :
    p.accepts (.literal ⟨.int, text⟩) = true ↔ p.text? = none ∨ p.text? = some text := by
  cases p with
  | literal note l =>
    obtain ⟨kind, text'⟩ := l
    simp only [isIntegerTest, Bool.and_eq_true, decide_eq_true_eq] at h
    obtain ⟨rfl, -⟩ := h
    simp [accepts, Val.tag?, text?, eq_comm]
  | wildcard _ | var _ _ => simp [accepts, text?]
  | _ => cases h

/-- Plain integers are written alike if they are the same. -/
theorem text?_of_isPlain (h : p.isPlain = true) (hn : p.Takes n) :
    p.text? = none ∨ p.text? = some (toString n) := by
  unfold isPlain at h
  cases htext : p.text? with
  | none => exact Or.inl rfl
  | some text =>
    rw [htext, Option.all_some, decide_eq_true_eq, Text.toIntegerOrZero, hn text htext] at h
    exact Or.inr (congrArg some h.symm)

end Pattern

namespace Match

variable {α : Type} {clauses : List (Clause α)}

/-- Clauses without guards that test for integers at most. -/
structure OnIntegers (clauses : List (Clause α)) : Prop where
  nonempty : clauses ≠ []
  unguarded : ∀ c ∈ clauses, c.guarded = false
  integers : ∀ c ∈ clauses, c.pattern.isIntegerTest = true

/-- Every integer that clause `i` matches is matched by a clause before it. -/
def Covered (clauses : List (Clause α)) (i : Nat) : Prop :=
  ∃ c, clauses[i]? = some c ∧ ∀ n, c.pattern.Takes n →
    ∃ j < i, ∃ c', clauses[j]? = some c' ∧ c'.pattern.Takes n

theorem integer_value {v : Val} (h : optionSignature.HasType v (.con "int" [])) :
    ∃ text, v = .literal ⟨.int, text⟩ := by
  cases v with
  | literal l =>
    simp only [Signature.HasType, form_int, reduceCtorEq, false_or, Form.constant.injEq] at h
    exact ⟨l.text, by rw [h.1]⟩
  | con c arg => cases arg <;> simp [Signature.HasType, form_int, Form.Offers] at h
  | _ => simp [Signature.HasType, form_int] at h

theorem OnIntegers.wellTyped (h : OnIntegers clauses) :
    WellTyped optionSignature clauses (.con "int" []) ∧ ∀ c ∈ clauses, c.pattern.Dotless := by
  have hall : ∀ c ∈ clauses, (c.pattern ≠ .omitted ∧
      optionSignature.Admits c.pattern (.con "int" [])) ∧ c.pattern.Dotless := by
    intro c hc
    have htest := h.integers c hc
    generalize c.pattern = p at htest
    cases p with
    | literal note l =>
      simp only [Pattern.isIntegerTest, Bool.and_eq_true, decide_eq_true_eq] at htest
      exact ⟨⟨nofun, by rw [form_int, htest.1], trivial⟩, nofun⟩
    | wildcard _ | var _ _ => exact ⟨⟨nofun, trivial⟩, nofun⟩
    | _ => cases htest
  exact ⟨⟨h.nonempty, fun c hc => (hall c hc).1.1, fun c hc => (hall c hc).1.2⟩,
    fun c hc => (hall c hc).2⟩

/-- Clauses are held against each other by their texts. -/
theorem OnIntegers.mem_unreachable (h : OnIntegers clauses) {r : Result}
    (hlen : r.clauses = clauses.length) (htree : Compiled (Matrix.ofClauses clauses) r.tree)
    {i : Nat} : i ∈ r.unreachable ↔ ∃ c, clauses[i]? = some c ∧ ∃ j < i, ∃ c',
      clauses[j]? = some c' ∧ (c'.pattern.text? = none ∨ c'.pattern.text? = c.pattern.text?) := by
  have hends : i ∈ r.tree.clauses ↔ _ :=
    h.wellTyped.1.ends_iff int_inhabited optionSignature_infinite htree (e := some i)
  have haccepts : ∀ {j : Nat} {c : Clause α}, clauses[j]? = some c → ∀ text,
      c.pattern.accepts (.literal ⟨.int, text⟩) = true ↔
        c.pattern.text? = none ∨ c.pattern.text? = some text :=
    fun hc text => Pattern.accepts_integer (h.integers _ (List.mem_of_getElem? hc))
  have hunreachable : i ∈ r.unreachable ↔ i < clauses.length ∧ ¬ i ∈ r.tree.clauses := by
    rw [← hlen]
    simp [Result.unreachable]
  rw [hunreachable, hends]
  simp only [firstHit_eq_some_iff]
  constructor
  · rintro ⟨hlt, hnone⟩
    have hc : clauses[i]? = some clauses[i] := by simp [hlt]
    have hvalue : ∀ text, (clauses[i].pattern.text? = none ∨ clauses[i].pattern.text? = some text) →
        ∃ j < i, ∃ c', clauses[j]? = some c' ∧
          (c'.pattern.text? = none ∨ c'.pattern.text? = some text) := by
      intro text htext
      by_contra hbefore
      obtain ⟨guard, hleast⟩ := exists_isLeast_iff.mpr ⟨clauses[i], hc,
        (haccepts hc text).mpr htext, by
          rintro ⟨j, hj, c', hc', -, haccept⟩
          exact hbefore ⟨j, hj, c', hc', (haccepts hc' text).mp haccept⟩⟩
      exact hnone ⟨.literal ⟨.int, text⟩, guard, Or.inr ⟨form_int, trivial⟩, hleast⟩
    refine ⟨clauses[i], hc, ?_⟩
    cases htext : clauses[i].pattern.text? with
    | some text => exact hvalue text (Or.inr htext)
    | none =>
      -- the empty text is no integer, so only a clause that tests nothing accepts it
      obtain ⟨j, hj, c', hc', hnone | hempty⟩ := hvalue "" (Or.inl htext)
      · exact ⟨j, hj, c', hc', Or.inl hnone⟩
      · obtain ⟨n, hn⟩ := Pattern.exists_integer (h.integers c' (List.mem_of_getElem? hc')) hempty
        cases hn "" hempty
  · rintro ⟨c, hc, j, hj, c', hc', htext⟩
    refine ⟨(List.getElem?_eq_some_iff.mp hc).1, ?_⟩
    rintro ⟨v, guard, hv, hleast⟩
    obtain ⟨text, rfl⟩ := integer_value hv
    obtain ⟨c₁, hc₁, haccept, hfirst⟩ := exists_isLeast_iff.mp ⟨guard, hleast⟩
    cases hc.symm.trans hc₁
    refine hfirst ⟨j, hj, c', hc', h.unguarded c' (List.mem_of_getElem? hc'),
      (haccepts hc' text).mpr ?_⟩
    rcases htext with hnone | heq
    · exact Or.inl hnone
    · rw [heq]
      exact (haccepts hc text).mp haccept

/-- An example of an integer is shown as its text, unless nothing is known of it. -/
theorem render_integer {w : Witness} {value : String}
    (h : w.Describes Val.view (.literal ⟨.int, value⟩)) :
    w.render false = "_" ∨ w.render false = value := by
  obtain ⟨head, hasArg, arg, elems, fields⟩ := w
  obtain ⟨hhead, -, harity, -, hfields⟩ := h
  by_cases hempty : head = ""
  · have helems : elems = [] := by
      by_contra hne
      obtain ⟨vs, hvs, -⟩ := harity hne
      cases hvs
    cases fields with
    | nil => simp [Witness.render, hempty, helems]
    | cons f fs =>
      obtain ⟨⟨y, hy, -⟩, -⟩ := hfields
      cases hy
  · obtain ⟨tag, htag, rfl, rfl⟩ := hhead hempty
    cases htag
    rw [Witness.render, if_pos hempty]
    exact Or.inr rfl

/-- No example is the text of a clause. -/
theorem OnIntegers.missing (h : OnIntegers clauses) {s : Store} {t : Ty} {r : Result}
    (hr : compile s clauses (some t) = .ok r) {text : String} (htext : text ∈ r.missing)
    {c : Clause α} (hc : c ∈ clauses) : c.pattern.text? ≠ none ∧ c.pattern.text? ≠ some text := by
  obtain ⟨htyped, hdots⟩ := h.wellTyped
  obtain ⟨r', hr', -, -, -, hwitnesses⟩ := htyped.describes hdots s t
  cases hr.symm.trans hr'
  obtain ⟨w, hw, rfl⟩ := List.mem_map.mp (List.mem_eraseDups.mp htext)
  obtain ⟨findings, hfails, hdescribes⟩ := hwitnesses w hw
  obtain ⟨vs, hvs, hhits, hagrees⟩ := hfails.missed optionSignature_infinite (fun _ => trivial)
    htyped.matrix (by simpa using int_inhabited)
  match vs, hvs with
  | [v], hvs =>
    obtain ⟨value, rfl⟩ := integer_value hvs.1
    have hnone : firstHit (fun _ => false) (hits (Matrix.ofClauses clauses).rows
        [.literal ⟨.int, value⟩]) = none := by
      simpa [firstHit] using hhits
    have hrejects : ¬ (c.pattern.text? = none ∨ c.pattern.text? = some value) := by
      rw [← Pattern.accepts_integer (h.integers c hc)]
      intro haccept
      have hguarded := exists_guard_iff.mp ⟨_, firstHit_eq_none_iff.mp hnone⟩ c hc haccept
      rw [h.unguarded c hc] at hguarded
      cases hguarded
    refine ⟨fun hnone => hrejects (Or.inl hnone), fun hsame => ?_⟩
    have hagree := hagrees _ (.cons (Val.at?_nil _) .nil)
    rcases render_integer (hagree.describes Val.view_functional hdescribes) with hblank | hvalue
    · obtain ⟨n, hn⟩ := Pattern.exists_integer (h.integers c hc) hsame
      have hread := hn _ hsame
      rw [hblank] at hread
      cases hread
    · exact hrejects (Or.inr (hvalue ▸ hsame))

/-- If every integer is matched by one of finitely many clauses, one of them tests nothing. -/
theorem exists_untested {i : Nat}
    (hall : ∀ n, ∃ j < i, ∃ c, clauses[j]? = some c ∧ c.pattern.Takes n) :
    ∃ j < i, ∃ c, clauses[j]? = some c ∧ c.pattern.text? = none := by
  let tested : List Int := clauses.filterMap fun c => c.pattern.text?.map Text.toIntegerOrZero
  obtain ⟨n, hn⟩ := Infinite.exists_notMem_finset tested.toFinset
  obtain ⟨j, hj, c, hc, htakes⟩ := hall n
  refine ⟨j, hj, c, hc, ?_⟩
  by_contra htested
  obtain ⟨text, htext⟩ := Option.ne_none_iff_exists'.mp htested
  refine hn (List.mem_toFinset.mpr (List.mem_filterMap.mpr ⟨c, List.mem_of_getElem? hc, ?_⟩))
  rw [htext, Option.map_some, Text.toIntegerOrZero, htakes text htext]

/-- Clauses for integers can be compiled, and are compared by their texts.  A clause counts as
unreachable exactly if a clause before it tests nothing or for the same text; so clauses before it
match all integers that it matches.  No example is the text of a clause.  If all literals are
plain, a clause counts as unreachable whenever clauses before it match all integers that it
matches, and no clause matches an integer that is shown as an example. -/
theorem integers_compared_by_text (s : Store) (clauses : List (Clause α)) (h : OnIntegers clauses) :
    ∃ r, compile s clauses (some .int) = .ok r ∧
      (∀ i, i ∈ r.unreachable ↔ ∃ c, clauses[i]? = some c ∧ ∃ j < i, ∃ c',
        clauses[j]? = some c' ∧ (c'.pattern.text? = none ∨ c'.pattern.text? = c.pattern.text?)) ∧
      (∀ i ∈ r.unreachable, Covered clauses i) ∧
      (∀ text ∈ r.missing, ∀ c ∈ clauses, c.pattern.text? ≠ none ∧ c.pattern.text? ≠ some text) ∧
      ((∀ c ∈ clauses, c.pattern.isPlain = true) →
        (∀ i, Covered clauses i → i ∈ r.unreachable) ∧
        ∀ n : Int, toString n ∈ r.missing → ∀ c ∈ clauses, ¬ c.pattern.Takes n) := by
  obtain ⟨r, hr, hlen, htree, -⟩ := h.wellTyped.1.describes h.wellTyped.2 s .int
  have hiff := fun i => h.mem_unreachable hlen htree (i := i)
  refine ⟨r, hr, hiff, ?_, fun text htext c hc => h.missing hr htext hc,
    fun hplain => ⟨?_, ?_⟩⟩
  · intro i hi
    obtain ⟨c, hc, j, hj, c', hc', htext⟩ := (hiff i).mp hi
    exact ⟨c, hc, fun n hn => ⟨j, hj, c', hc', Pattern.takes_of_text? htext hn⟩⟩
  · rintro i ⟨c, hc, hcovered⟩
    refine (hiff i).mpr ⟨c, hc, ?_⟩
    cases htext : c.pattern.text? with
    | none =>
      have hall : ∀ n, c.pattern.Takes n := by simp [Pattern.Takes, htext]
      obtain ⟨j, hj, c', hc', hnone⟩ := exists_untested fun n => hcovered n (hall n)
      exact ⟨j, hj, c', hc', Or.inl hnone⟩
    | some text =>
      obtain ⟨n, hn⟩ := Pattern.exists_integer (h.integers c (List.mem_of_getElem? hc)) htext
      obtain ⟨j, hj, c', hc', hn'⟩ := hcovered n hn
      have hown := Pattern.text?_of_isPlain (hplain c (List.mem_of_getElem? hc)) hn
      rw [htext] at hown
      rw [hown.resolve_left nofun]
      exact ⟨j, hj, c', hc', Pattern.text?_of_isPlain (hplain c' (List.mem_of_getElem? hc')) hn'⟩
  · intro n htext c hc htakes
    obtain ⟨htested, hother⟩ := h.missing hr htext hc
    exact (Pattern.text?_of_isPlain (hplain c hc) htakes).elim htested hother

/-- The clauses `1`, `01` and `_`. -/
def spelledTwice : List (Clause Unit) :=
  [⟨.literal () ⟨.int, "1"⟩, false⟩, ⟨.literal () ⟨.int, "01"⟩, false⟩, ⟨.wildcard (), false⟩]

theorem integers_compared_by_text_spelledTwice :
    OnIntegers spelledTwice ∧ ∃ r, compile {} spelledTwice (some .int) = .ok r ∧
      ∀ i ∈ r.unreachable, Covered spelledTwice i :=
  have h : OnIntegers spelledTwice := ⟨by decide, by decide, by decide⟩
  ⟨h, (integers_compared_by_text {} spelledTwice h).imp fun _ hr => ⟨hr.1, hr.2.2.1⟩⟩

/-- An integer that is written in two ways: clauses before `01` match what it matches, and it does
not count as unreachable; the example of what `00` leaves out is matched by it. -/
theorem spelled_twice_told_apart :
    (Covered spelledTwice 1 ∧
      (compile {} spelledTwice (some .int)).map Result.unreachable = .ok []) ∧
    (compile {} [⟨.literal () ⟨.int, "00"⟩, false⟩] (some .int)).map Result.missing =
      .ok [toString (0 : Int)] ∧ (Pattern.literal () ⟨.int, "00"⟩).Takes 0 := by
  refine ⟨⟨⟨_, rfl, ?_⟩, rfl⟩, rfl, ?_⟩
  · intro n hn
    obtain rfl : 1 = n := Text.Reading.exact.inj (hn "01" rfl)
    refine ⟨0, by decide, _, rfl, ?_⟩
    rintro text ⟨⟩
    rfl
  · rintro text ⟨⟩
    rfl

end Match

end Typecase
