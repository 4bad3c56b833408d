import Typecase.Proofs.Types.Texts
import Mathlib.Logic.Encodable.Basic
import Mathlib.Logic.Equiv.List
set_option autoImplicit false

/-!
# Reading types

A text tells which type it shows, up to the numbers of the variables.  The proof is a reader that
goes through a text from left to right, with a stack of the brackets that are open, and finds the
type again.
-/

namespace Typecase.Reading

/-- Whether a character ends a word. -/
def isSeparator (c : Char) : Bool :=
  [' ', '(', ')', '\x7b', '\x7d', ',', ':', '*', '-', '>'].contains c

/-- A nonempty text without separators. -/
def IsWord (cs : List Char) : Prop := cs ≠ [] ∧ ∀ c ∈ cs, isSeparator c = false

theorem no_separator {cs : List Char} (h : cs.all (!isSeparator ·) = true) :
    ∀ c ∈ cs, isSeparator c = false := by
  simpa using h

/-- What has been read since a bracket was opened. -/
structure Frame where
  /-- Labels and types up to the last comma. -/
  items : List (String × Tree) := []
  label : String := ""
  /-- The arguments of functions since then. -/
  args : List Tree := []
  /-- The components of a tuple since then. -/
  elems : List Tree := []
  /-- What the next word is applied to. -/
  operand : List Tree := []

namespace Frame

def product (fr : Frame) : Tree :=
  match fr.elems ++ fr.operand with
  | [t] => t
  | ts => .tuple ts

def type (fr : Frame) : Tree := fr.args.foldr .arrow fr.product

/-- All labels and types, with those after the last comma. -/
def all (fr : Frame) : List (String × Tree) :=
  if fr.operand.isEmpty then fr.items else fr.items ++ [(fr.label, fr.type)]

end Frame

structure Reader where
  /-- The word at the end of what has been read. -/
  word : List Char
  frame : Frame
  /-- What was read before the brackets that are open, latest first. -/
  outer : List Frame

namespace Reader

variable {code : String → Int} {texts : List String} {x : String} {ts : List Tree}

/-- A word applied to types.  The numbers of variables are made from their names by `code`. -/
def apply (code : String → Int) (word : List Char) (args : List Tree) : Tree :=
  match word with
  | '\'' :: rest => .var 0 (code (.ofList word)) (rest.head? != some '_')
  | _ => if String.ofList word = "unit" then .tuple [] else .con (.ofList word) args

/-- The word ends here. -/
def flush (code : String → Int) : Reader → Reader
  | ⟨[], fr, outer⟩ => ⟨[], fr, outer⟩
  | ⟨word, fr, outer⟩ => ⟨[], { fr with operand := [apply code word fr.operand] }, outer⟩

/-- A bracket is closed, and what is between the brackets is the next operand. -/
def close (r : Reader) (f : List (String × Tree) → List Tree) : Reader :=
  match r.outer with
  | [] => r
  | fr :: outer => ⟨[], { fr with operand := f r.frame.all }, outer⟩

def punctuate (r : Reader) (c : Char) : Reader :=
  match c with
  | '(' | '\x7b' => ⟨[], {}, r.frame :: r.outer⟩
  | ')' => r.close fun items => items.map (·.2)
  | '\x7d' => r.close fun items => [.record items .rigid]
  | ',' => { r with frame := { items := r.frame.all } }
  | '*' => { r with frame := { r.frame with
      elems := r.frame.elems ++ r.frame.operand, operand := [] } }
  | '-' => { r with frame := { r.frame with
      args := r.frame.args ++ [r.frame.product], elems := [], operand := [] } }
  | _ => r

def step (code : String → Int) (r : Reader) (c : Char) : Reader :=
  if c = ':' then ⟨[], { r.frame with label := .ofList r.word }, r.outer⟩
  else if isSeparator c then (r.flush code).punctuate c
  else { r with word := r.word ++ [c] }

/-- The reader after a text that follows an opening bracket or a separator. -/
def after (code : String → Int) (text : String) (fr : Frame) (outer : List Frame) : Reader :=
  (text.toList.foldl (step code) ⟨[], fr, outer⟩).flush code

theorem foldl_word {cs : List Char} (hcs : ∀ c ∈ cs, isSeparator c = false) (r : Reader) :
    cs.foldl (step code) r = { r with word := r.word ++ cs } := by
  induction cs generalizing r with
  | nil => simp
  | cons c cs ih =>
    rw [List.forall_mem_cons] at hcs
    have hc : c ≠ ':' := by
      rintro rfl
      exact absurd hcs.1 (by decide)
    rw [List.foldl_cons, ih hcs.2, step, if_neg hc, hcs.1]
    simp

theorem flush_word {word : List Char} (hword : word ≠ []) (fr : Frame) (outer : List Frame) :
    flush code ⟨word, fr, outer⟩ =
      ⟨[], { fr with operand := [apply code word fr.operand] }, outer⟩ := by
  cases word with
  | nil => exact absurd rfl hword
  | cons c cs => rfl

theorem after_word (hx : IsWord x.toList) (fr : Frame) (outer : List Frame) :
    after code x fr outer =
      ⟨[], { fr with operand := [apply code x.toList fr.operand] }, outer⟩ := by
  rw [after, foldl_word hx.2, List.nil_append, flush_word hx.1]

section Separators

variable {x y : String} {fr fr' fr'' : Frame} {outer outer' outer'' : List Frame}

/-- A text goes on behind a separator. -/
theorem after_append (c : Char) (cs : List Char) {sep : String}
    (ha : after code x fr outer = ⟨[], fr', outer'⟩) (hsep : sep.toList = c :: cs)
    (hc : (c != ':' && isSeparator c) = true)
    (hrun : (c :: cs).foldl (step code) ⟨[], fr', outer'⟩ = ⟨[], fr'', outer''⟩) :
    after code (x ++ sep ++ y) fr outer = after code y fr'' outer'' := by
  rw [Bool.and_eq_true, bne_iff_ne] at hc
  have hstep : ∀ r, step code r c = step code (r.flush code) c := by
    rintro ⟨_ | _, fr, outer⟩ <;> simp [step, hc, flush]
  have hseparated : sep.toList.foldl (step code) (x.toList.foldl (step code) ⟨[], fr, outer⟩) =
      ⟨[], fr'', outer''⟩ := by
    rw [hsep, List.foldl_cons, hstep, ← hrun, ← ha]
    rfl
  rw [after, String.toList_append, String.toList_append, List.foldl_append, List.foldl_append,
    hseparated]
  rfl

section After

variable (h : after code x fr outer = ⟨[], fr', outer'⟩)
include h

theorem after_space : after code (x ++ " " ++ y) fr outer = after code y fr' outer' :=
  after_append ' ' [] h rfl rfl rfl

theorem after_comma :
    after code (x ++ ", " ++ y) fr outer = after code y { items := fr'.all } outer' :=
  after_append ',' [' '] h rfl rfl rfl

theorem after_star : after code (x ++ " * " ++ y) fr outer =
      after code y { fr' with elems := fr'.elems ++ fr'.operand, operand := [] } outer' :=
  after_append ' ' ['*', ' '] h rfl rfl rfl

theorem after_arrow : after code (x ++ " -> " ++ y) fr outer = after code y
      { fr' with args := fr'.args ++ [fr'.product], elems := [], operand := [] } outer' :=
  after_append ' ' ['-', '>', ' '] h rfl rfl rfl

end After

theorem after_parens (h : after code x {} (fr :: outer) = ⟨[], fr', fr :: outer⟩) :
    after code ("(" ++ x ++ ")") fr outer =
      ⟨[], { fr with operand := fr'.all.map (·.2) }, outer⟩ := by
  have hopen : after code ("(" ++ x) fr outer = ⟨[], fr', fr :: outer⟩ := by
    rw [← h, after, String.toList_append]
    rfl
  rw [← String.append_empty (s := "(" ++ x ++ ")")]
  exact after_append ')' [] hopen rfl rfl rfl

theorem after_braces (h : after code x {} (fr :: outer) = ⟨[], fr', fr :: outer⟩) :
    after code ("\x7b" ++ x ++ "\x7d") fr outer =
      ⟨[], { fr with operand := [.record fr'.all .rigid] }, outer⟩ := by
  have hopen : after code ("\x7b" ++ x) fr outer = ⟨[], fr', fr :: outer⟩ := by
    rw [← h, after, String.toList_append]
    rfl
  rw [← String.append_empty (s := "\x7b" ++ x ++ "\x7d")]
  exact after_append '\x7d' [] hopen rfl rfl rfl

end Separators

/-- The text of a type `t`, read as an operand, as a product, or as the type of a whole bracket. -/
def Reads (code : String → Int) (t : Tree) (text : String) : Tree.Place → Prop
  | .operand => ∀ fr outer, fr.operand = [] →
    after code text fr outer = ⟨[], { fr with operand := [t] }, outer⟩
  | .product => ∀ fr outer, fr.operand = [] → fr.elems = [] →
    ∃ es u, after code text fr outer = ⟨[], { fr with elems := es, operand := [u] }, outer⟩ ∧
      Frame.product { fr with elems := es, operand := [u] } = t
  | .loose => ∀ fr outer, fr.operand = [] → fr.elems = [] →
    ∃ as es u,
      after code text fr outer = ⟨[], { fr with args := as, elems := es, operand := [u] }, outer⟩ ∧
        Frame.type { fr with args := as, elems := es, operand := [u] } = fr.args.foldr .arrow t

variable {t a b : Tree} {text text' : String} {place : Tree.Place}

theorem Reads.loose_of_product (h : Reads code t text .product) : Reads code t text .loose := by
  intro fr outer hoperand helems
  obtain ⟨es, u, hafter, hproduct⟩ := h fr outer hoperand helems
  exact ⟨fr.args, es, u, hafter, congrArg (fr.args.foldr Tree.arrow) hproduct⟩

theorem Reads.of_operand (h : Reads code t text .operand) : Reads code t text place := by
  have hproduct : Reads code t text .product := by
    intro fr outer hoperand helems
    refine ⟨[], t, ?_, rfl⟩
    rw [h fr outer hoperand, ← helems]
  cases place with
  | loose => exact hproduct.loose_of_product
  | product => exact hproduct
  | operand => exact h

theorem Reads.arrow (ha : Reads code a text .product) (hb : Reads code b text' .loose) :
    Reads code (.arrow a b) (text ++ " -> " ++ text') .loose := by
  intro fr outer hoperand helems
  obtain ⟨es, u, hafter, hproduct⟩ := ha fr outer hoperand helems
  obtain ⟨as, es', u', hafter', htype⟩ :=
    hb { fr with args := fr.args ++ [a], elems := [], operand := [] } outer rfl rfl
  refine ⟨as, es', u', ?_, ?_⟩
  · rw [after_arrow hafter, ← hafter', ← hproduct]
  · rw [List.foldr_append] at htype
    exact htype

/-- Brackets hold labelled or unlabelled types. -/
def ReadsItem (code : String → Int) (item : String × Tree) (text : String) : Prop :=
  ∀ items outer, ∃ fr, after code text { items := items } outer = ⟨[], fr, outer⟩ ∧
    fr.all = items ++ [item]

theorem Reads.item (h : Reads code t text .loose) : ReadsItem code ("", t) text := by
  intro items outer
  obtain ⟨as, es, u, hafter, htype⟩ := h { items := items } outer rfl rfl
  exact ⟨_, hafter, congrArg (fun t => items ++ [("", t)]) htype⟩

theorem Reads.field {l : String} (hl : IsWord l.toList) (h : Reads code t text .loose) :
    ReadsItem code (l, t) (l ++ ": " ++ text) := by
  intro items outer
  obtain ⟨as, es, u, hafter, htype⟩ := h { items := items, label := l } outer rfl rfl
  refine ⟨⟨items, l, as, es, [u]⟩, ?_, congrArg (fun t => items ++ [(l, t)]) htype⟩
  rw [← hafter, after, String.toList_append, String.toList_append, List.foldl_append,
    List.foldl_append, foldl_word hl.2]
  show flush code (text.toList.foldl (step code)
    ⟨[], ⟨items, .ofList l.toList, [], [], []⟩, outer⟩) = _
  rw [String.ofList_toList]
  rfl

theorem after_items {items : List (String × Tree)} (h : List.Forall₂ (ReadsItem code) items texts)
    (hne : items ≠ []) :
    ∀ done outer, ∃ fr, after code (", ".intercalate texts) { items := done } outer =
      ⟨[], fr, outer⟩ ∧ fr.all = done ++ items := by
  induction h with
  | nil => exact absurd rfl hne
  | @cons item text items texts hitem hrest ih =>
    intro done outer
    obtain ⟨fr, hafter, hall⟩ := hitem done outer
    cases hrest with
    | nil => exact ⟨fr, hafter, hall⟩
    | cons hitem' hrest =>
      obtain ⟨fr', hafter', hall'⟩ := ih (List.cons_ne_nil _ _) fr.all outer
      refine ⟨fr', ?_, ?_⟩
      · rw [String.intercalate_cons_cons, after_comma hafter, hafter']
      · rw [hall', hall, List.append_assoc]
        rfl

theorem after_elems (h : List.Forall₂ (fun t text => Reads code t text .operand) ts texts)
    (hne : ts ≠ []) :
    ∀ fr outer, fr.operand = [] → ∃ es u, after code (" * ".intercalate texts) fr outer =
      ⟨[], { fr with elems := es, operand := [u] }, outer⟩ ∧ es ++ [u] = fr.elems ++ ts := by
  induction h with
  | nil => exact absurd rfl hne
  | @cons t text ts texts ht hrest ih =>
    intro fr outer hoperand
    have hafter := ht fr outer hoperand
    cases hrest with
    | nil => exact ⟨fr.elems, t, hafter, rfl⟩
    | cons ht' hrest =>
      obtain ⟨es, u, hafter', helems⟩ := ih (List.cons_ne_nil _ _)
        { fr with elems := fr.elems ++ [t], operand := [] } outer rfl
      refine ⟨es, u, ?_, ?_⟩
      · rw [String.intercalate_cons_cons, after_star hafter, ← hafter']
      · rw [helems, List.append_assoc]
        rfl

theorem Reads.parens (h : Reads code t text .loose) :
    Reads code t ("(" ++ text ++ ")") .operand := by
  intro fr outer _
  obtain ⟨fr', hafter, hall⟩ := h.item [] (fr :: outer)
  rw [after_parens hafter, hall]
  rfl

/-- A name that is neither that of a variable nor that of the empty tuple. -/
def IsName (x : String) : Prop := IsWord x.toList ∧ x.toList.head? ≠ some '\'' ∧ x ≠ "unit"

theorem after_name (hx : IsName x) (fr : Frame) (outer : List Frame) :
    after code x fr outer = ⟨[], { fr with operand := [.con x fr.operand] }, outer⟩ := by
  have hquote : ∀ rest, x.toList ≠ '\'' :: rest :=
    fun rest h => hx.2.1 (congrArg List.head? h)
  have happly : apply code x.toList fr.operand = .con x fr.operand := by
    unfold apply
    split
    · rename_i rest h
      exact absurd h (hquote rest)
    · rw [String.ofList_toList, if_neg hx.2.2]
  rw [after_word hx.1, happly]

/-- The text of a type constructor that is applied to types with the given texts. -/
def conText (x : String) : List String → String
  | [] => x
  | [arg] => arg ++ " " ++ x
  | texts => "(" ++ ", ".intercalate texts ++ ") " ++ x

theorem reads_con (hx : IsName x)
    (h : List.Forall₂ (fun t text => Reads code t text (if ts.length = 1 then .operand else .loose))
      ts texts) : Reads code (.con x ts) (conText x texts) .operand := by
  intro fr outer hoperand
  match ts, texts, h with
  | [], _, .nil => rw [conText, after_name hx, hoperand]
  | [t], _, .cons ht .nil => rw [conText, after_space (ht fr outer hoperand), after_name hx]
  | t :: t' :: ts, text :: text' :: texts, h =>
    have hitems : List.Forall₂ (ReadsItem code) ((t :: t' :: ts).map fun t => ("", t))
        (text :: text' :: texts) := by
      rw [List.forall₂_map_left_iff]
      exact h.imp fun _ _ h => Reads.item (by simpa using h)
    obtain ⟨fr', hafter, hall⟩ := after_items hitems (by simp) [] (fr :: outer)
    show after code ("(" ++ ", ".intercalate (text :: text' :: texts) ++ (")" ++ " ") ++ x) fr
      outer = _
    rw [← String.append_assoc, after_space (after_parens hafter), after_name hx, hall]
    simp

theorem reads_tuple (h : List.Forall₂ (fun t text => Reads code t text .operand) ts texts)
    (hne : ts ≠ []) (hlen : ts.length ≠ 1) :
    Reads code (.tuple ts) (" * ".intercalate texts) .product := by
  intro fr outer hoperand helems
  obtain ⟨es, u, hafter, heq⟩ := after_elems h hne fr outer hoperand
  refine ⟨es, u, hafter, ?_⟩
  rw [helems, List.nil_append] at heq
  subst heq
  unfold Frame.product
  split
  · simp_all
  · rfl

theorem reads_record {fields : List (String × Tree)}
    (h : List.Forall₂ (ReadsItem code) fields texts) :
    Reads code (.record fields .rigid) ("\x7b" ++ ", ".intercalate texts ++ "\x7d") .operand := by
  intro fr outer _
  cases h with
  | nil => exact after_braces (x := "") rfl
  | cons hitem hrest =>
    obtain ⟨fr', hafter, hall⟩ := after_items (.cons hitem hrest) (by simp) [] (fr :: outer)
    rw [after_braces hafter, hall, List.nil_append]

end Reader

/-! ## Names of variables -/

/-- How the names of variables begin. -/
def quote (generic : Bool) : String := if generic then "'" else "'_"

theorem letter_word : ∀ k < 26, isSeparator (Char.ofNat (97 + k)) = false ∧
    Char.ofNat (97 + k) ≠ '_' ∧ ∀ j < 26, Char.ofNat (97 + j) = Char.ofNat (97 + k) → j = k := by
  decide

theorem toList_nth (q : String) (i : Nat) : (Names.nth q i).toList = q.toList ++
    Char.ofNat (97 + i % 26) :: if i < 26 then [] else Nat.toDigits 10 (i / 26) := by
  unfold Names.nth
  rw [Nat.toString_eq_ofList_toDigits]
  split <;> simp

theorem nth_injective (q : String) : Function.Injective (Names.nth q) := by
  intro i j h
  have htext := congrArg String.toList h
  rw [toList_nth, toList_nth, List.append_cancel_left_eq, List.cons.injEq] at htext
  obtain ⟨hletter, hdigits⟩ := htext
  replace hletter := (letter_word _ (Nat.mod_lt j (by decide))).2.2 _
    (Nat.mod_lt i (by decide)) hletter
  split_ifs at hdigits
  · omega
  · exact absurd hdigits.symm Nat.toDigits_ne_nil
  · exact absurd hdigits Nat.toDigits_ne_nil
  · replace hdigits := congrArg (Nat.ofDigitChars 10 · 0) hdigits
    simp only [Nat.ofDigitChars_ten_toDigits] at hdigits
    omega

theorem isWord_nth (generic : Bool) (i : Nat) : IsWord (Names.nth (quote generic) i).toList := by
  have hdigit : ∀ c : Char, c.isDigit = true → isSeparator c = false := by
    intro c hc
    by_contra hsep
    simp only [isSeparator, List.contains_eq_mem, decide_eq_true_eq, Bool.not_eq_false,
      List.mem_cons, List.not_mem_nil, or_false] at hsep
    rcases hsep with rfl | rfl | rfl | rfl | rfl | rfl | rfl | rfl | rfl | rfl <;> cases hc
  rw [toList_nth]
  refine ⟨by simp, List.forall_mem_append.mpr ⟨by cases generic <;> exact no_separator rfl,
    List.forall_mem_cons.mpr ⟨(letter_word _ (Nat.mod_lt i (by decide))).1, ?_⟩⟩⟩
  split
  · nofun
  · exact fun c hc => hdigit c (Nat.isDigit_of_mem_toDigits (by decide) (by decide) hc)

theorem apply_nth (code : String → Int) (generic : Bool) (i : Nat) (args : List Tree) :
    Reader.apply code (Names.nth (quote generic) i).toList args =
      .var 0 (code (Names.nth (quote generic) i)) generic := by
  have hletter := (letter_word _ (Nat.mod_lt i (by decide))).2.1
  have htext := toList_nth (quote generic) i
  generalize hx : Names.nth (quote generic) i = x at htext
  rw [← String.ofList_toList (s := x), htext, String.toList_ofList]
  cases generic with
  | false => rfl
  | true =>
    show Tree.var 0 _ (some _ != some '_') = _
    simp [hletter]

/-- The number of names given to variables of a kind. -/
def count (ns : Names) (generic : Bool) : Nat := if generic then ns.generic else ns.unbound

/-- The names given so far belong to one number each, and the kind of a variable shows in its
name. -/
structure Proper (kind : Int → Bool) (ns : Names) : Prop where
  distinct : ∀ e ∈ ns.assigned, ∀ e' ∈ ns.assigned, e.1 = e'.1 ↔ e.2 = e'.2
  named : ∀ e ∈ ns.assigned, ∃ i < count ns (kind e.1), e.2 = Names.nth (quote (kind e.1)) i

variable {α β : Type} {kind : Int → Bool} {code : String → Int}

/-- A printer that keeps names proper.  The property `P` holds of what it prints and of all numbers
for the variables that come from their names. -/
def Spells (kind : Int → Bool) (code : String → Int) (m : StateM Names α)
    (P : (Int → Int) → α → Prop) : Prop :=
  ∀ ns, Proper kind ns → Proper kind (m ns).2 ∧ ns.assigned ⊆ (m ns).2.assigned ∧
    ∀ π : Int → Int, (∀ e ∈ (m ns).2.assigned, π e.1 = code e.2) → P π (m ns).1

theorem Spells.pure {a : α} {P : (Int → Int) → α → Prop} (h : ∀ π, P π a) :
    Spells kind code (Pure.pure a) P :=
  fun _ hns => ⟨hns, List.Subset.refl _, fun π _ => h π⟩

theorem Spells.imp {m : StateM Names α} {P Q : (Int → Int) → α → Prop} (hm : Spells kind code m P)
    (h : ∀ π a, P π a → Q π a) : Spells kind code m Q :=
  fun ns hns => ⟨(hm ns hns).1, (hm ns hns).2.1, fun π hπ => h π _ ((hm ns hns).2.2 π hπ)⟩

theorem Spells.bind {m : StateM Names α} {k : α → StateM Names β} {P : (Int → Int) → α → Prop}
    {Q : (Int → Int) → β → Prop} (hm : Spells kind code m P)
    (hk : ∀ a, Spells kind code (k a) fun π b => P π a → Q π b) : Spells kind code (m >>= k) Q := by
  intro ns hns
  obtain ⟨hproper, hsub, hP⟩ := hm ns hns
  obtain ⟨hproper', hsub', hQ⟩ := hk (m ns).1 (m ns).2 hproper
  exact ⟨hproper', List.Subset.trans hsub hsub',
    fun π hπ => hQ π hπ (hP π fun e he => hπ e (hsub' he))⟩

theorem quote_ne {i j : Nat} {g g' : Bool} (h : Names.nth (quote g) i = Names.nth (quote g') j) :
    g = g' := by
  have happly := apply_nth (fun _ => 0) g i []
  rw [h, apply_nth] at happly
  cases happly
  rfl

/-- A number that has no name gets one. -/
theorem Proper.add {ns ns' : Names} (h : Proper kind ns) {id : Int}
    (hnew : ns.assigned.lookup id = none) (hassigned : ns'.assigned =
      (id, Names.nth (quote (kind id)) (count ns (kind id))) :: ns.assigned)
    (hcount : ∀ g, count ns' g = count ns g + if g = kind id then 1 else 0) : Proper kind ns' := by
  have hother : ∀ e ∈ ns.assigned,
      e.1 ≠ id ∧ e.2 ≠ Names.nth (quote (kind id)) (count ns (kind id)) := by
    intro e he
    refine ⟨?_, ?_⟩
    · rintro rfl
      simpa using List.lookup_eq_none_iff.mp hnew e he
    · intro heq
      obtain ⟨i, hi, hname⟩ := h.named e he
      rw [heq] at hname
      have hkind := quote_ne hname
      rw [← hkind] at hname hi
      exact absurd (nth_injective _ hname) (Nat.ne_of_gt hi)
  constructor
  · rw [hassigned]
    refine List.forall_mem_cons.mpr ⟨List.forall_mem_cons.mpr ⟨by simp, fun e he => ?_⟩,
      fun e he => List.forall_mem_cons.mpr ⟨?_, h.distinct e he⟩⟩
    · exact iff_of_false (hother e he).1.symm (hother e he).2.symm
    · exact iff_of_false (hother e he).1 (hother e he).2
  · rw [hassigned]
    refine List.forall_mem_cons.mpr ⟨⟨_, ?_, rfl⟩, fun e he => ?_⟩
    · simp [hcount]
    · obtain ⟨i, hi, hname⟩ := h.named e he
      exact ⟨i, by rw [hcount]; omega, hname⟩

theorem spells_name (id : Int) : Spells kind code (Names.name id (kind id)) fun π x =>
    Reader.Reads code (.var 0 (π id) (kind id)) x .operand := by
  -- whether the name is new or not, it is the one that belongs to the number
  have hreads : ∀ {ns : Names} {x : String} {π : Int → Int}, Proper kind ns →
      (id, x) ∈ ns.assigned → (∀ e ∈ ns.assigned, π e.1 = code e.2) →
      Reader.Reads code (.var 0 (π id) (kind id)) x .operand := by
    intro ns x π hns hmem hπ fr outer hoperand
    obtain ⟨i, -, hx⟩ := hns.named _ hmem
    replace hx : x = Names.nth (quote (kind id)) i := hx
    rw [hπ _ hmem, hx, Reader.after_word (isWord_nth _ i), apply_nth]
  intro ns hns
  cases hlookup : ns.assigned.lookup id with
  | some x =>
    obtain ⟨before, after, heq, -⟩ := List.lookup_eq_some_iff.mp hlookup
    have hname : Names.name id (kind id) ns = (x, ns) := by simp only [Names.name, hlookup]
    rw [hname]
    exact ⟨hns, List.Subset.refl _, fun π hπ => hreads hns (by simp [heq]) hπ⟩
  | none =>
    obtain ⟨ns', hname, hassigned, hcount⟩ : ∃ ns', Names.name id (kind id) ns =
        (Names.nth (quote (kind id)) (count ns (kind id)), ns') ∧
        ns'.assigned = (id, Names.nth (quote (kind id)) (count ns (kind id))) :: ns.assigned ∧
        ∀ g, count ns' g = count ns g + if g = kind id then 1 else 0 := by
      simp only [Names.name, hlookup]
      cases kind id <;> exact ⟨_, rfl, rfl, by intro g; cases g <;> rfl⟩
    rw [hname]
    have hns' := hns.add hlookup hassigned hcount
    refine ⟨hns', ?_, fun π hπ => hreads hns' ?_ hπ⟩ <;> simp [hassigned]

/-! ## Types -/

mutual

/-- Types whose texts can be read: names are words, no tuple has a single component, records have
no open rows, and `kind` tells for each number whether it belongs to a quantified variable. -/
def Plain (kind : Int → Bool) : Tree → Prop
  | .var _ id generic => generic = kind id
  | .con x args => Reader.IsName x ∧ PlainList kind args
  | .arrow a r => Plain kind a ∧ Plain kind r
  | .tuple es => es.length ≠ 1 ∧ PlainList kind es
  | .record fields rest => rest = .rigid ∧ PlainFields kind fields
  | .invalidRecord | .lost => False

def PlainList (kind : Int → Bool) : List Tree → Prop
  | [] => True
  | t :: ts => Plain kind t ∧ PlainList kind ts

def PlainFields (kind : Int → Bool) : List (String × Tree) → Prop
  | [] => True
  | (l, t) :: fs => IsWord l.toList ∧ Plain kind t ∧ PlainFields kind fs

end

open Reader Typecase.Tree

mutual

theorem spells_render : (t : Tree) → Plain kind t → (place : Place) →
    Spells kind code (t.render place) fun π text => Reads code (t.renumber π) text place
  | .var _ id _, rfl, place => by
    rw [render]
    exact (spells_name id).imp fun π _ h => h.of_operand
  | .con x args, h, place => by
    rw [render]
    refine (spells_renderList args h.2 _).bind fun texts => ?_
    have hreads : ∀ π, List.Forall₂ (fun t text => Reads code t text
        (if args.length = 1 then .operand else .loose)) (renumberList π args) texts →
        Reads code (.con x (renumberList π args)) (conText x texts) place := by
      intro π htexts
      rw [← length_renumberList (π := π) args] at htexts
      exact (reads_con h.1 htexts).of_operand
    rcases texts with _ | ⟨_, _ | ⟨_, _⟩⟩ <;> exact .pure hreads
  | .arrow a r, h, place => by
    rw [render]
    refine (spells_render a h.1 _).bind fun x => (spells_render r h.2 _).bind fun y => .pure ?_
    intro π hr ha
    cases place with
    | loose => exact ha.arrow hr
    | product | operand => exact (ha.arrow hr).parens.of_operand
  | .tuple es, h, place => by
    rw [render]
    refine (spells_renderList es h.2 _).bind fun texts => ?_
    have hlen : ∀ π, (renumberList π es).length ≠ 1 := fun π => by
      rw [length_renumberList]
      exact h.1
    cases texts with
    | nil =>
      refine .pure fun π htexts => ?_
      rw [renumber, List.forall₂_nil_right_iff.mp htexts]
      exact Reads.of_operand fun fr outer _ => after_word ⟨by decide, no_separator rfl⟩ fr outer
    | cons text texts =>
      refine .pure fun π htexts => ?_
      have hreads := reads_tuple htexts (by rintro heq; rw [heq] at htexts; cases htexts) (hlen π)
      cases place with
      | loose => exact hreads.loose_of_product
      | product => exact hreads
      | operand => exact hreads.loose_of_product.parens
  | .record fields rest, h, place => by
    obtain ⟨rfl, hfields⟩ := h
    rw [render]
    exact (spells_renderFields fields hfields).bind fun texts => .pure fun π h =>
      (reads_record h).of_operand

theorem spells_renderList : (ts : List Tree) → PlainList kind ts → (place : Place) →
    Spells kind code (renderList place ts) fun π texts =>
      List.Forall₂ (fun t text => Reads code t text place) (renumberList π ts) texts
  | [], _, _ => .pure fun _ => .nil
  | t :: ts, h, place => by
    rw [renderList]
    exact (spells_render t h.1 place).bind fun _ => (spells_renderList ts h.2 place).bind fun _ =>
      .pure fun _ hts ht => .cons ht hts

theorem spells_renderFields : (fs : List (String × Tree)) → PlainFields kind fs →
    Spells kind code (renderFields fs) fun π texts =>
      List.Forall₂ (ReadsItem code) (renumberFields π fs) texts
  | [], _ => .pure fun _ => .nil
  | (l, t) :: fs, h => by
    rw [renderFields]
    exact (spells_render t h.2.1 .loose).bind fun _ => (spells_renderFields fs h.2.2).bind fun _ =>
      .pure fun _ hfs ht => .cons (ht.field h.1) hfs

end

theorem exists_perm_read (hcode : Function.Injective code) {t : Tree} (h : Plain kind t) :
    ∃ π : Int ≃ Int, (after code (t.render .loose {}).1 {} []).frame.type = t.renumber π := by
  have hspells : Spells kind code (t.render .loose) fun π text =>
    Reads code (t.renumber π) text .loose := spells_render t h .loose
  obtain ⟨hproper, -, hreads⟩ := hspells {} ⟨nofun, nofun⟩
  obtain ⟨π, hπ⟩ := Store.exists_perm (t.render .loose {}).2.assigned (·.1) (fun e => code e.2)
    fun e he e' he' => (hproper.distinct e he e' he').trans hcode.eq_iff.symm
  obtain ⟨as, es, u, hafter, htype⟩ := hreads π hπ {} [] rfl rfl
  exact ⟨π, by rw [hafter]; exact htype⟩

mutual

theorem renumber_renumber (π ρ : Int → Int) :
    (t : Tree) → (t.renumber π).renumber ρ = t.renumber (ρ ∘ π)
  | .var _ _ _ | .invalidRecord | .lost => rfl
  | .con x args => congrArg (Tree.con x) (renumberList_renumberList π ρ args)
  | .arrow a r => congrArg₂ Tree.arrow (renumber_renumber π ρ a) (renumber_renumber π ρ r)
  | .tuple es => congrArg Tree.tuple (renumberList_renumberList π ρ es)
  | .record fields rest => congrArg₂ Tree.record (renumberFields_renumberFields π ρ fields)
      (by cases rest <;> rfl)

theorem renumberList_renumberList (π ρ : Int → Int) :
    (ts : List Tree) → renumberList ρ (renumberList π ts) = renumberList (ρ ∘ π) ts
  | [] => rfl
  | t :: ts => congrArg₂ List.cons (renumber_renumber π ρ t) (renumberList_renumberList π ρ ts)

theorem renumberFields_renumberFields (π ρ : Int → Int) :
    (fs : List (String × Tree)) → renumberFields ρ (renumberFields π fs) = renumberFields (ρ ∘ π) fs
  | [] => rfl
  | (l, t) :: fs => congrArg₂ (fun t fs => (l, t) :: fs) (renumber_renumber π ρ t)
      (renumberFields_renumberFields π ρ fs)

end

/-- Two types have the same text exactly if they differ in the numbers of their variables only,
quantified variables stand for quantified ones, and different ones for different ones. -/
theorem showType_eq_iff {s s' : Store} {t t' : Ty} {kind' : Int → Bool}
    (ht : Plain kind (s.resolve t)) (ht' : Plain kind' (s'.resolve t')) :
    s.showType t = s'.showType t' ↔
      ∃ π : Int ≃ Int, (s.resolve t).renumber π = (s'.resolve t').renumber id := by
  constructor
  · intro htext
    obtain ⟨code, hcode⟩ : ∃ code : String → Int, Function.Injective code := by
      refine ⟨fun x => (Encodable.encode (x.toList.map Char.toNat) : Nat), fun x y h => ?_⟩
      have hmap := Encodable.encode_injective (Int.ofNat_inj.mp h)
      exact String.toList_inj.mp (List.map_injective_iff.mpr (fun c d => Char.toNat_inj.mp) hmap)
    obtain ⟨π, hπ⟩ := exists_perm_read hcode ht
    obtain ⟨π', hπ'⟩ := exists_perm_read hcode ht'
    have hsame : (s.resolve t).renumber π = (s'.resolve t').renumber π' := by
      rw [← hπ, ← hπ']
      exact congrArg (fun x => (after code x {} []).frame.type) htext
    refine ⟨π.trans π'.symm, ?_⟩
    have hback := congrArg (renumber π'.symm) hsame
    rw [renumber_renumber, renumber_renumber, Equiv.symm_comp_self] at hback
    exact hback
  · rintro ⟨π, hπ⟩
    rw [Store.showType_renumber π.injective, hπ, ← Store.showType_renumber Function.injective_id]

/-- The type `('a -> '_a) list`, over other variables in each of two stores. -/
theorem showType_eq_iff_list :
    let s : Store := { cells := #[⟨5, .generic⟩, ⟨3, .unbound 1⟩] }
    let s' : Store := { cells := #[⟨0, .unbound 2⟩, ⟨1, .generic⟩] }
    let t (v w : Var) : Ty := .con (.node 0) "list" [.arrow (.node 1) (.var v) (.var w)]
    ∃ π : Int ≃ Int, (s.resolve (t 0 1)).renumber π = (s'.resolve (t 1 0)).renumber id := by
  intro s s' t
  have hlist : IsName "list" := ⟨⟨by decide, no_separator rfl⟩, by decide, by decide⟩
  have ht : Plain (· == 5) (s.resolve (t 0 1)) := ⟨hlist, ⟨rfl, rfl⟩, trivial⟩
  have ht' : Plain (· == 1) (s'.resolve (t 1 0)) := ⟨hlist, ⟨rfl, rfl⟩, trivial⟩
  exact (showType_eq_iff ht ht').mp (by decide +kernel)

end Typecase.Reading
