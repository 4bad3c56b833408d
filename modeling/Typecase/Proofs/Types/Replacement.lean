import Typecase.Proofs.Types.Resolved
set_option autoImplicit false

/-!
# Replacing variables in resolved types

A variable that stands for a type is replaced by a type, one that stands for the rest of a
record by further fields and an end.  Types that are the same stay the same.
-/

namespace Typecase

/-- What takes the place of a variable. -/
inductive Replacement where
  | type (t : Tree)
  /-- The fields and the end that a record goes on with. -/
  | row (fields : LabelMap Tree) (rest : RowEnd)

/-- How a record goes on that ends in `e`. -/
def RowEnd.replace (θ : Var → Option Replacement) : RowEnd → LabelMap Tree × RowEnd
  | .rigid => ([], .rigid)
  | .flexible v =>
    match θ v with
    | some (.row fields rest) => (fields, rest)
    | _ => ([], .flexible v)

namespace Tree

mutual

/-- The type with the replacements made that `θ` gives; other variables stay. -/
def replace (θ : Var → Option Replacement) : Tree → Tree
  | .var v id generic =>
    match θ v with
    | some (.type t) => t
    | _ => .var v id generic
  | .con name args => .con name (replaceList θ args)
  | .arrow a r => .arrow (replace θ a) (replace θ r)
  | .tuple es => .tuple (replaceList θ es)
  | .record fields rest => .record (replaceFields θ fields ++ (rest.replace θ).1) (rest.replace θ).2
  | .invalidRecord => .invalidRecord
  | .lost => .lost

def replaceList (θ : Var → Option Replacement) : List Tree → List Tree
  | [] => []
  | t :: ts => replace θ t :: replaceList θ ts

/-- The replacements made in labelled types. -/
def replaceFields (θ : Var → Option Replacement) : List (String × Tree) → List (String × Tree)
  | [] => []
  | (l, t) :: ts => (l, replace θ t) :: replaceFields θ ts

end

variable {θ : Var → Option Replacement} {a b c : Tree}

theorem replaceList_eq (ts : List Tree) : replaceList θ ts = ts.map (replace θ) := by
  induction ts with
  | nil => rfl
  | cons t ts ih => rw [replaceList, ih, List.map_cons]

theorem replaceFields_eq (fs : List (String × Tree)) :
    replaceFields θ fs = fs.map fun f => (f.1, replace θ f.2) := by
  induction fs with
  | nil => rfl
  | cons f fs ih => rw [replaceFields, ih, List.map_cons]

/-! ## Same types -/

theorem isSome_part? (t : Tree) (slot : Slot) : (t.part? slot).isSome = t.symbol.has slot := by
  cases t with
  | con name args =>
    cases slot with
    | index i => exact Slot.isSome_nth args i
    | field l => rfl
  | arrow x r =>
    cases slot with
    | index i => exact Slot.isSome_nth [x, r] i
    | field l => rfl
  | tuple es =>
    cases slot with
    | index i => exact Slot.isSome_nth es i
    | field l => rfl
  | _ => cases slot <;> rfl

/-- Types with the same symbol have parts at the same places. -/
theorem part?_of_symbol (h : a.symbol = b.symbol) {slot : Slot} {t : Tree}
    (ht : a.part? slot = some t) : ∃ u, b.part? slot = some u := by
  rw [← Option.isSome_iff_exists, isSome_part?, ← h, ← isSome_part?, ht]
  rfl

theorem Same.symbol_eq (h : a.Same b) : a.symbol = b.symbol := by
  cases h with
  | node hsymbol _ => exact hsymbol

theorem Same.part (h : a.Same b) {slot : Slot} {t u : Tree} (ht : a.part? slot = some t)
    (hu : b.part? slot = some u) : t.Same u := by
  cases h with
  | node _ hparts => exact hparts slot t u ht hu

theorem Same.symm (h : a.Same b) : b.Same a := by
  induction h with
  | node hsymbol _ ih => exact .node hsymbol.symm fun slot t u ht hu => ih slot u t hu ht

theorem Same.trans (h : a.Same b) (h' : b.Same c) : a.Same c := by
  induction h generalizing c with
  | node hsymbol _ ih =>
    refine .node (hsymbol.trans h'.symbol_eq) ?_
    intro slot t w ht hw
    obtain ⟨u, hu⟩ := part?_of_symbol hsymbol ht
    exact ih slot t u ht hu (h'.part hu hw)

theorem sizeOf_part? {t : Tree} {slot : Slot} (h : a.part? slot = some t) :
    sizeOf t < sizeOf a := by
  cases a with
  | con name args =>
    have hlt := List.sizeOf_lt_of_mem (Slot.mem_of_nth h)
    rw [con.sizeOf_spec]
    omega
  | arrow x r =>
    have hmem : t = x ∨ t = r := by simpa using Slot.mem_of_nth h
    rw [arrow.sizeOf_spec]
    rcases hmem with rfl | rfl <;> omega
  | tuple es =>
    have hlt := List.sizeOf_lt_of_mem (Slot.mem_of_nth h)
    rw [tuple.sizeOf_spec]
    omega
  | record fields rest =>
    obtain ⟨l, hmem⟩ := Slot.mem_of_named h
    have hlt := List.sizeOf_lt_of_mem hmem
    rw [Prod.mk.sizeOf_spec] at hlt
    rw [record.sizeOf_spec]
    omega
  | _ => cases h

theorem Same.refl (a : Tree) : a.Same a := by
  induction hn : sizeOf a using Nat.strong_induction_on generalizing a with
  | _ n ih =>
    refine .node rfl ?_
    intro slot t u ht hu
    rw [ht] at hu
    cases hu
    exact ih (sizeOf t) (hn ▸ sizeOf_part? ht) t rfl

/-- `b` is a part of `a`. -/
def Part (a b : Tree) : Prop := ∃ slot, a.part? slot = some b

theorem Same.descend (h : a.Same b) (hc : a.Part c) : ∃ d, b.Part d ∧ c.Same d := by
  obtain ⟨slot, hslot⟩ := hc
  obtain ⟨d, hd⟩ := part?_of_symbol h.symbol_eq hslot
  exact ⟨d, ⟨slot, hd⟩, h.part hslot hd⟩

/-- No type is the same as a proper part of it. -/
theorem not_same_part (h : Relation.TransGen Part a b) : ¬ a.Same b := by
  induction hn : sizeOf a using Nat.strong_induction_on generalizing a b with
  | _ n ih =>
    intro hsame
    obtain ⟨c, ⟨slot, hslot⟩, hrest⟩ := Relation.TransGen.head'_iff.mp h
    -- the corresponding part of `b` is a proper part of `c`, and the same as `c`
    obtain ⟨d, hd, hcd⟩ := hsame.descend ⟨slot, hslot⟩
    exact ih (sizeOf c) (hn ▸ sizeOf_part? hslot) (Relation.TransGen.tail' hrest hd) rfl hcd

/-! ## Records -/

/-- Both records lack a label, or both have it with the same type. -/
abbrev SameAt (t u : Option Tree) : Prop := Option.Rel Same t u

theorem SameAt.refl (t : Option Tree) : SameAt t t := by
  cases t with
  | none => exact .none
  | some t => exact .some (.refl t)

theorem SameAt.symm {t u : Option Tree} (h : SameAt t u) : SameAt u t := by
  cases h with
  | none => exact .none
  | some h => exact .some h.symm

theorem SameAt.isSome_eq {t u : Option Tree} (h : SameAt t u) : t.isSome = u.isSome := by
  cases h <;> rfl

/-- Records are the same if they end alike and agree on every label. -/
theorem same_record {fs gs : LabelMap Tree} {e e' : RowEnd} :
    (record fs e).Same (record gs e') ↔
      e = e' ∧ ∀ l, SameAt (fs.lookup l) (gs.lookup l) := by
  constructor
  · intro h
    obtain ⟨hlabels, hend⟩ := Symbol.record.inj h.symbol_eq
    refine ⟨hend, ?_⟩
    intro l
    have hlabel : (fs.lookup l).isSome = (gs.lookup l).isSome := congrFun hlabels l
    cases ht : fs.lookup l with
    | none =>
      cases hu : gs.lookup l with
      | none => exact .none
      | some u => simp [ht, hu] at hlabel
    | some t =>
      cases hu : gs.lookup l with
      | none => simp [ht, hu] at hlabel
      | some u =>
        have hpart : (record fs e).part? (.field l) = some t := ht
        exact .some (h.part hpart hu)
  · rintro ⟨rfl, hlabels⟩
    refine .node ?_ ?_
    · have hhas : LabelMap.has fs = LabelMap.has gs := funext fun l => (hlabels l).isSome_eq
      rw [symbol, symbol, hhas]
    · intro slot t u ht hu
      cases slot with
      | index i => cases ht
      | field l =>
        have hl := hlabels l
        rw [show fs.lookup l = some t from ht, show gs.lookup l = some u from hu] at hl
        cases hl with
        | some hsame => exact hsame

theorem eq_record_of_symbol {labels : String → Bool} {e : RowEnd}
    (h : a.symbol = .record labels e) : ∃ fields, a = .record fields e := by
  cases a with
  | record fields rest =>
    obtain ⟨-, rfl⟩ := Symbol.record.inj h
    exact ⟨fields, rfl⟩
  | _ => cases h

/-! ## Replacing -/

theorem lookup_replace_record (fields : LabelMap Tree) (e : RowEnd) (l : String) :
    (replaceFields θ fields ++ (e.replace θ).1).lookup l =
      ((fields.lookup l).map (replace θ)).or ((e.replace θ).1.lookup l) := by
  rw [List.lookup_append, replaceFields_eq, LabelMap.lookup_map]

/-- Replacing keeps the symbol and acts on the parts, except at variables and at the ends of
records. -/
theorem replace_node (θ : Var → Option Replacement) (hvar : ∀ v, a.symbol ≠ .var v)
    (hrecord : ∀ labels e, a.symbol ≠ .record labels e) :
    (a.replace θ).symbol = a.symbol ∧
      ∀ slot, (a.replace θ).part? slot = (a.part? slot).map (replace θ) := by
  cases a with
  | var v id generic => exact absurd rfl (hvar v)
  | con name args =>
    rw [replace, replaceList_eq]
    exact ⟨by simp [symbol], Slot.nth_map _ args⟩
  | arrow x r => exact ⟨rfl, Slot.nth_map _ [x, r]⟩
  | tuple es =>
    rw [replace, replaceList_eq]
    exact ⟨by simp [symbol], Slot.nth_map _ es⟩
  | record fields rest => exact absurd rfl (hrecord _ rest)
  | invalidRecord | lost => exact ⟨rfl, fun _ => rfl⟩

/-- Types that are the same stay the same. -/
theorem Same.replace (h : a.Same b) (θ : Var → Option Replacement) :
    (a.replace θ).Same (b.replace θ) := by
  induction h with
  | @node a b hsymbol hparts ih =>
    by_cases hvar : ∃ v, a.symbol = .var v
    · obtain ⟨v, hv⟩ := hvar
      have hb : b.symbol = .var v := hsymbol ▸ hv
      cases a <;> cases hv
      cases b <;> cases hb
      rw [Tree.replace, Tree.replace]
      cases θ v with
      | none => exact .node rfl fun slot t u ht => by cases ht
      | some r =>
        cases r with
        | type t => exact .refl t
        | row => exact .node rfl fun slot t u ht => by cases ht
    · by_cases hrecord : ∃ labels e, a.symbol = .record labels e
      · obtain ⟨labels, e, he⟩ := hrecord
        obtain ⟨fs, rfl⟩ := eq_record_of_symbol he
        obtain ⟨gs, rfl⟩ := eq_record_of_symbol (hsymbol ▸ he)
        have hlabels := same_record.mp (Same.node hsymbol hparts)
        rw [Tree.replace, Tree.replace]
        refine same_record.mpr ⟨rfl, ?_⟩
        intro l
        rw [lookup_replace_record, lookup_replace_record]
        generalize hfs : fs.lookup l = t, hgs : gs.lookup l = u
        cases hfs ▸ hgs ▸ hlabels.2 l with
        | none => exact .refl _
        | some => exact .some (ih (.field l) _ _ hfs hgs)
      · obtain ⟨hsym, hpart⟩ := replace_node θ (fun v hv => hvar ⟨v, hv⟩)
          (fun labels e he => hrecord ⟨labels, e, he⟩)
        obtain ⟨hsym', hpart'⟩ := replace_node θ (fun v hv => hvar ⟨v, hsymbol.trans hv⟩)
          (fun labels e he => hrecord ⟨labels, e, hsymbol.trans he⟩)
        refine .node (hsym.trans (hsymbol.trans hsym'.symm)) ?_
        intro slot t u ht hu
        rw [hpart, Option.map_eq_some_iff] at ht
        rw [hpart', Option.map_eq_some_iff] at hu
        obtain ⟨t', ht', rfl⟩ := ht
        obtain ⟨u', hu', rfl⟩ := hu
        exact ih slot t' u' ht' hu'

end Tree

end Typecase
