import Typecase.Proofs.LabelMap
import Typecase.Match.Compile
set_option autoImplicit false

/-!
# Paths and their texts

The compiler keeps the shapes of parts of the scrutinee under the texts of their paths.
A text is unambiguous only if no label and no constructor name holds a dot: `$.a.b` is
the field `b` of the field `a`, but also the field `a.b`.  Without dots, the text of a
path gives the texts of its steps, and what is kept under the paths below one part is
not touched by what is learned about the parts beside it.
-/

namespace Typecase

/-- What a step adds to the text of a path, after a dot. -/
def Step.text : Step → String
  | .component i => toString i
  | .field l => l
  | .arg c => c.name

/-- Whether a text holds no dot. -/
def IsDotless (text : String) : Prop := '.' ∉ text.toList

instance (text : String) : Decidable (IsDotless text) := inferInstanceAs (Decidable (¬ _))

namespace Path

/-- The texts of the steps of a path. -/
def texts (p : Path) : List String := p.map Step.text

/-- Whether no step of a path holds a dot. -/
def Dotless (p : Path) : Prop := ∀ text ∈ p.texts, IsDotless text

@[simp] theorem texts_append (p q : Path) : texts (p ++ q) = texts p ++ texts q := by
  simp [texts]

theorem Dotless.append {p q : Path} (hp : Dotless p) (hq : Dotless q) : Dotless (p ++ q) := by
  intro text htext
  rw [texts_append] at htext
  exact (List.mem_append.mp htext).elim (hp text) (hq text)

theorem dotless_singleton {step : Step} : Dotless [step] ↔ IsDotless step.text := by
  simp [Dotless, texts]

theorem dotless_nil : Dotless [] := by simp [Dotless, texts]

/-- The text of a path is `$` followed by the texts of its steps, each after a dot. -/
theorem toList_render (p : Path) :
    p.render.toList = '$' :: p.texts.flatMap fun text => '.' :: text.toList := by
  have hfold : ∀ (q : Path) (start : String),
      (q.foldl (fun text step => text ++ "." ++ step.text) start).toList =
        start.toList ++ q.texts.flatMap fun text => '.' :: text.toList := by
    intro q
    induction q with
    | nil => simp [texts]
    | cons step q ih =>
      intro start
      rw [List.foldl_cons, ih]
      simp [texts]
  have hstep : p.render = p.foldl (fun text step => text ++ "." ++ step.text) "$" := by
    unfold render
    congr 1
  rw [hstep, hfold]
  rfl

/-- Words without dots can be told apart when each of them follows a dot. -/
theorem dotted_injective {xs ys : List (List Char)} (hxs : ∀ x ∈ xs, '.' ∉ x)
    (hys : ∀ y ∈ ys, '.' ∉ y) (h : (xs.flatMap ('.' :: ·)) = ys.flatMap ('.' :: ·)) : xs = ys := by
  -- a word ends where a dot or the end of the text follows
  have hword : ∀ (x : List Char) (rest : List (List Char)), '.' ∉ x →
      (x ++ rest.flatMap ('.' :: ·)).takeWhile (· ≠ '.') = x := by
    intro x rest hx
    have hall : ∀ c ∈ x, decide (c ≠ '.') = true := by
      intro c hc
      simpa using fun heq : c = '.' => hx (heq ▸ hc)
    rw [List.takeWhile_append_of_pos hall]
    cases rest <;> simp
  induction xs generalizing ys with
  | nil => cases ys with
    | nil => rfl
    | cons y ys => simp at h
  | cons x xs ih =>
    cases ys with
    | nil => simp at h
    | cons y ys =>
      simp only [List.flatMap_cons, List.cons_append, List.cons.injEq, true_and] at h
      have hhead : x = y := by
        rw [← hword x xs (hxs x List.mem_cons_self), h, hword y ys (hys y List.mem_cons_self)]
      subst hhead
      have htail := ih (fun x' hx' => hxs x' (List.mem_cons_of_mem x hx'))
        (fun y' hy' => hys y' (List.mem_cons_of_mem x hy')) (List.append_cancel_left h)
      rw [htail]

/-- Without dots in its steps, the text of a path gives the texts of its steps. -/
theorem texts_eq_of_render {p q : Path} (hp : Dotless p) (hq : Dotless q)
    (h : p.render = q.render) : p.texts = q.texts := by
  have htexts : (p.texts.map String.toList).flatMap ('.' :: ·) =
      (q.texts.map String.toList).flatMap ('.' :: ·) := by
    have hlists := congrArg String.toList h
    rw [toList_render, toList_render] at hlists
    simpa [List.flatMap_map] using hlists
  have hwords := dotted_injective (by simpa [Dotless, IsDotless] using hp)
    (by simpa [Dotless, IsDotless] using hq) htexts
  exact List.map_injective_iff.mpr (fun _ _ => String.toList_injective) hwords

end Path

/-! ## Steps to components -/

theorem isDotless_toString (i : Nat) : IsDotless (toString i) := by
  intro hmem
  rw [Nat.toString_eq_ofList_toDigits, String.toList_ofList] at hmem
  have hdigit := Nat.isDigit_of_mem_toDigits (by decide) (by decide) hmem
  simp at hdigit

end Typecase
