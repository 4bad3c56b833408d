import Typecase.Proofs.Match.Normalize
import Mathlib.Data.Finset.Preimage
import Mathlib.Data.List.Perm.Subperm
set_option autoImplicit false

/-!
# Testing a column

A test of a column of a normal matrix sends a value to the matrix of its tag or, if the
tag does not occur in the column, to the default matrix.  Both keep the hits.  A column
whose tags are complete sends no value to the default; otherwise some value goes there.
-/

namespace Typecase.Match

variable {α : Type} {rows : List (Row α)} {col : Nat}

/-! ## The tags of a column -/

theorem columnTags_eq {tags : List Tag} (h : columnTags rows col = .ok tags) :
    tags = (rows.filterMap fun r => headTag (r.pat col)).eraseDups := by
  unfold columnTags at h
  cases hall : rows.filterMap fun r => headTag (r.pat col) with
  | nil =>
    rw [hall] at h
    cases h
    rfl
  | cons first others =>
    rw [hall] at h
    simp only at h
    split at h
    · cases h
      rfl
    · cases h

theorem mem_columnTags {tags : List Tag} (h : columnTags rows col = .ok tags) {tag : Tag} :
    tag ∈ tags ↔ ∃ r ∈ rows, headTag (r.pat col) = some tag := by
  rw [columnTags_eq h, List.mem_eraseDups, List.mem_filterMap]

theorem columnTags_typed {Δ : Signature} {τ : Tree} (hrows : ∀ r ∈ rows, Δ.Admits (r.pat col) τ) :
    ∃ tags, columnTags rows col = .ok tags := by
  have hopens : ∀ tag ∈ rows.filterMap fun r => headTag (r.pat col), ∃ σs, Δ.Opens τ tag σs := by
    intro tag htag
    obtain ⟨r, hr, hhead⟩ := List.mem_filterMap.mp htag
    exact Signature.Admits.opens (hrows r hr) hhead
  unfold columnTags
  cases hall : rows.filterMap fun r => headTag (r.pat col) with
  | nil => exact ⟨[], rfl⟩
  | cons first others =>
    rw [hall] at hopens
    obtain ⟨σs, hfirst⟩ := hopens first List.mem_cons_self
    have hcompatible : (first :: others).all first.compatible = true := by
      rw [List.all_eq_true]
      intro tag htag
      obtain ⟨σs', htag⟩ := hopens tag htag
      exact hfirst.compatible htag
    exact ⟨_, if_pos hcompatible⟩

/-! ## Sending a value down -/

section Column

variable {Δ : Signature} {m : Matrix α} {before after : List Tree} {τ : Tree} {col : Nat}
  {path : Path} {tag : Tag} {σs : List Tree}

theorem reads_specialized (hopens : Δ.Opens τ tag σs) {p : Pattern α} (hp : Δ.Admits p τ)
    (hplain : isPlain p = true) {v : Val} (htag : v.tag? = some tag) {ws : List Val}
    (hparts : v.HasParts tag.steps ws) : Reads (specialized tag) v ws p := by
  unfold Reads specialized
  by_cases hmay : p.isWild = true ∨ headTag p = some tag
  · rw [if_pos hmay]
    exact hopens.accepts hp hmay htag hparts
  · rw [if_neg hmay]
    have hhead : (headTag p).isSome = true := by
      simpa [isPlain, not_or.mp hmay] using hplain
    obtain ⟨tag', htag'⟩ := Option.isSome_iff_exists.mp hhead
    refine Pattern.accepts_of_headTag_ne htag' htag ?_
    intro heq
    exact hmay (Or.inr (heq ▸ htag'))

theorem reads_unspecialized {p : Pattern α} (hplain : isPlain p = true) {v : Val}
    (htag : v.tag? = some tag) (hne : headTag p ≠ some tag) : Reads unspecialized v [] p := by
  unfold Reads unspecialized
  cases hwild : p.isWild with
  | true => exact Pattern.accepts_of_isWild hwild v
  | false =>
    have hhead : (headTag p).isSome = true := by simpa [isPlain, hwild] using hplain
    obtain ⟨tag', htag'⟩ := Option.isSome_iff_exists.mp hhead
    refine Pattern.accepts_of_headTag_ne htag' htag ?_
    intro heq
    exact hne (heq ▸ htag')

theorem admits_specialized (hopens : Δ.Opens τ tag σs) (p : Pattern α) (hp : Δ.Admits p τ)
    (qs : List (Pattern α)) (hqs : specialized tag p = some qs) : Δ.AdmitsAll qs σs := by
  unfold specialized at hqs
  split at hqs
  · rename_i hmay
    cases hqs
    exact hopens.admits hp hmay
  · cases hqs

theorem admits_unspecialized (p : Pattern α) (_ : Δ.Admits p τ) (qs : List (Pattern α))
    (hqs : unspecialized p = some qs) : Δ.AdmitsAll qs [] := by
  unfold unspecialized at hqs
  split at hqs
  · cases hqs
    simp [Signature.AdmitsAll]
  · cases hqs

variable (hm : m.Typed Δ (before ++ τ :: after)) (hcol : before.length = col)
  (hpath : m.paths[col]? = some path)
include hm hcol hpath

theorem Matrix.Typed.specialize (hopens : Δ.Opens τ tag σs) :
    (m.specialize col path tag).Typed Δ (before ++ σs ++ after) := by
  rw [Matrix.specialize_eq]
  exact hm.replace hcol hpath hopens.steps_length.1 (admits_specialized hopens)

theorem Matrix.Typed.default : (m.default col).Typed Δ (before ++ [] ++ after) := by
  rw [Matrix.default_eq m col path]
  exact hm.replace hcol hpath rfl admits_unspecialized

variable (hplain : ∀ r ∈ m.rows, isPlain (r.pat col) = true)
  {us us' : List Val} (hus : Δ.HaveTypes us before) (hus' : Δ.HaveTypes us' after) {v : Val}
include hplain hus

/-- A value goes to the matrix of its tag. -/
theorem hits_specialize (hopens : Δ.Opens τ tag σs) (htag : v.tag? = some tag) {ws : List Val}
    (hws : Δ.HaveTypes ws σs) (hparts : v.HasParts tag.steps ws) :
    hits (m.specialize col path tag).rows (us ++ ws ++ us') = hits m.rows (us ++ v :: us') ∧
      ∀ root, Located root m.paths (us ++ v :: us') →
        Located root (m.specialize col path tag).paths (us ++ ws ++ us') := by
  have hlen : us.length = col := (Signature.haveTypes_iff.mp hus).length_eq.trans hcol
  rw [Matrix.specialize_eq]
  refine ⟨hits_replace hm hcol (admits_specialized hopens) hus hws ?_, ?_⟩
  · intro r hr
    exact reads_specialized hopens (hm.admits_pat hcol hr) (hplain r hr) htag hparts
  · intro root hroot
    exact located_replace hpath hlen hparts hroot

/-- A value whose tag does not occur goes to the default matrix. -/
theorem hits_default {tags : List Tag} (htags : columnTags m.rows col = .ok tags)
    (htag : v.tag? = some tag) (hnotin : tag ∉ tags) :
    hits (m.default col).rows (us ++ [] ++ us') = hits m.rows (us ++ v :: us') ∧
      ∀ root, Located root m.paths (us ++ v :: us') →
        Located root (m.default col).paths (us ++ [] ++ us') := by
  have hlen : us.length = col := (Signature.haveTypes_iff.mp hus).length_eq.trans hcol
  rw [Matrix.default_eq m col path]
  refine ⟨hits_replace hm hcol admits_unspecialized hus trivial ?_, ?_⟩
  · intro r hr
    refine reads_unspecialized (hplain r hr) htag ?_
    intro hhead
    exact hnotin ((mem_columnTags htags).mpr ⟨r, hr, hhead⟩)
  · intro root hroot
    exact located_replace hpath hlen .nil hroot

end Column

/-! ## Complete tags -/

section Complete

variable {Δ : Signature} {τ : Tree} {tags : List Tag} {cons : List (Con × Option Tree)}

/-- The tags of a closed datatype are its constructors. -/
theorem closed_opens (hform : Δ.form τ = .closed cons) {tag : Tag} {σs : List Tree}
    (h : Δ.Opens τ tag σs) : tag ∈ cons.map fun e => Tag.con e.1 := by
  cases h with
  | constant hconstant => simp [hform] at hconstant
  | con hoffers =>
    rw [hform] at hoffers
    exact List.mem_map.mpr ⟨_, hoffers, rfl⟩

theorem closed_nodup (hform : Δ.form τ = .closed cons) : (cons.map fun e => Tag.con e.1).Nodup := by
  obtain ⟨name, args, d, hd, -, rfl⟩ := Signature.form_closed hform
  have hcons := Signature.constructors_nodup (Δ := Δ) (Δ.numbered name d hd) args
  have hmap := hcons.map (f := Tag.con) fun _ _ h => Tag.con.inj h
  rwa [List.map_map] at hmap

/-- Tags of a type are complete if the type is a closed datatype with as many
constructors. -/
theorem isComplete_iff (hopens : ∀ tag ∈ tags, ∃ σs, Δ.Opens τ tag σs) (hne : tags ≠ []) :
    isComplete tags = true ↔ ∃ cons, Δ.form τ = .closed cons ∧ cons.length = tags.length := by
  match tags with
  | [] => exact absurd rfl hne
  | .literal l :: rest =>
    obtain ⟨σs, hopen⟩ := hopens (.literal l) List.mem_cons_self
    cases hopen with
    | constant hform => simp [isComplete, hform]
  | .con c :: rest =>
    obtain ⟨σs, hopen⟩ := hopens (.con c) List.mem_cons_self
    cases hopen with
    | con hoffers =>
      cases hform : Δ.form τ with
      | closed cons =>
        rw [hform] at hoffers
        obtain ⟨name, args, d, hd, ho, rfl⟩ := Signature.form_closed hform
        have hsiblings := (Signature.mem_constructors ho hoffers).2.2
        obtain ⟨all, hall, hlen⟩ := Option.map_eq_some_iff.mp hsiblings
        simp [isComplete, hall, hlen]
      | extensible d carried =>
        rw [hform] at hoffers
        simp [isComplete, hoffers.2.1]
      | _ =>
        rw [hform] at hoffers
        exact absurd hoffers (by simp [Form.Offers])

/-- Complete tags are the tags of all values. -/
theorem mem_of_isComplete (hopens : ∀ tag ∈ tags, ∃ σs, Δ.Opens τ tag σs) (hnodup : tags.Nodup)
    (hcomplete : isComplete tags = true) {tag : Tag} {σs : List Tree} (htag : Δ.Opens τ tag σs) :
    tag ∈ tags := by
  have hne : tags ≠ [] := by
    rintro rfl
    simp [isComplete] at hcomplete
  obtain ⟨cons, hform, hlen⟩ := (isComplete_iff hopens hne).mp hcomplete
  -- the tags are among the constructors, and as many
  have hsub : tags ⊆ cons.map fun e => Tag.con e.1 := by
    intro tag' htag'
    obtain ⟨σs', hopen⟩ := hopens tag' htag'
    exact closed_opens hform hopen
  have hperm : tags.Perm (cons.map fun e => Tag.con e.1) :=
    (List.subperm_of_subset hnodup hsub).perm_of_length_le (by simp [hlen])
  exact hperm.mem_iff.mpr (closed_opens hform htag)

/-- Tags of a closed datatype that are not complete leave out a constructor. -/
theorem exists_con_of_not_isComplete (hform : Δ.form τ = .closed cons)
    (hopens : ∀ tag ∈ tags, ∃ σs, Δ.Opens τ tag σs) (hnodup : tags.Nodup) (hne : tags ≠ [])
    (hcomplete : isComplete tags = false) : ∃ c arg, (c, arg) ∈ cons ∧ Tag.con c ∉ tags := by
  by_contra hnone
  have hsub : (cons.map fun e => Tag.con e.1) ⊆ tags := by
    intro tag htag
    obtain ⟨⟨c, arg⟩, he, rfl⟩ := List.mem_map.mp htag
    by_contra hnotin
    exact hnone ⟨c, arg, he, hnotin⟩
  have hsub' : tags ⊆ cons.map fun e => Tag.con e.1 := by
    intro tag htag
    obtain ⟨σs, hopen⟩ := hopens tag htag
    exact closed_opens hform hopen
  have hle := (List.subperm_of_subset (closed_nodup hform) hsub).length_le
  have hge := (List.subperm_of_subset hnodup hsub').length_le
  rw [List.length_map] at hle hge
  have htrue := (isComplete_iff hopens hne).mpr ⟨cons, hform, Nat.le_antisymm hle hge⟩
  simp [hcomplete] at htrue

/-- Finitely many tags leave out a constructor of an open datatype. -/
theorem exists_con_of_extensible (d : Nat) (tags : List Tag) :
    ∃ c : Con, c.datatype = d ∧ c.siblings = none ∧ c.hasArg = false ∧ Tag.con c ∉ tags := by
  have hinjective : Function.Injective fun n : Nat =>
      Tag.con ⟨d, "", none, "", n, false, true⟩ := by
    intro m n h
    cases h
    rfl
  obtain ⟨n, hn⟩ := Infinite.exists_notMem_finset (tags.toFinset.preimage _ hinjective.injOn)
  refine ⟨⟨d, "", none, "", n, false, true⟩, rfl, rfl, rfl, ?_⟩
  rwa [Finset.mem_preimage, List.mem_toFinset] at hn

/-- Finitely many tags leave out a constant. -/
theorem exists_constant {kind : LiteralKind} (h : {text | Δ.isConstant ⟨kind, text⟩}.Infinite)
    (tags : List Tag) : ∃ text, Δ.isConstant ⟨kind, text⟩ ∧ Tag.literal ⟨kind, text⟩ ∉ tags := by
  obtain ⟨text, htext, hfresh⟩ := h.exists_notMem_finset (tags.filterMap fun
    | .literal l => some l.text
    | .con _ => none).toFinset
  refine ⟨text, htext, ?_⟩
  intro hmem
  exact hfresh (List.mem_toFinset.mpr (List.mem_filterMap.mpr ⟨_, hmem, rfl⟩))

/-- Tags that are not complete leave out a value. -/
theorem exists_value_of_not_isComplete (hτ : Δ.Inhabited τ)
    (hinfinite : ∀ k, {text | Δ.isConstant ⟨k, text⟩}.Infinite)
    (hopens : ∀ tag ∈ tags, ∃ σs, Δ.Opens τ tag σs) (hnodup : tags.Nodup) (hne : tags ≠ [])
    (hcomplete : isComplete tags = false) :
    ∃ v tag, Δ.HasType v τ ∧ v.tag? = some tag ∧ tag ∉ tags := by
  cases hform : Δ.form τ with
  | constant kind =>
    obtain ⟨text, htext, hfresh⟩ := exists_constant (hinfinite kind) tags
    exact ⟨.literal ⟨kind, text⟩, .literal ⟨kind, text⟩, Or.inr ⟨hform, htext⟩, rfl, hfresh⟩
  | closed cons =>
    obtain ⟨c, arg, hmem, hfresh⟩ := exists_con_of_not_isComplete hform hopens hnodup hne hcomplete
    have hoffers : (Δ.form τ).Offers c arg := by
      rw [hform]
      exact hmem
    cases arg with
    | none => exact ⟨.con c none, .con c, Or.inr hoffers, rfl, hfresh⟩
    | some σ =>
      obtain ⟨w, hw⟩ := (hτ.component (.arg hoffers)).value
      exact ⟨.con c (some w), .con c, Or.inr ⟨σ, hoffers, hw⟩, rfl, hfresh⟩
  | extensible d carried =>
    obtain ⟨c, hd, hsiblings, harg, hfresh⟩ := exists_con_of_extensible d tags
    have hoffers : (Δ.form τ).Offers c none := by
      rw [hform]
      exact ⟨hd, hsiblings, by simp [harg]⟩
    exact ⟨.con c none, .con c, Or.inr hoffers, rfl, hfresh⟩
  | _ =>
    -- no pattern tests a value of any other type
    obtain ⟨tag, htag⟩ := List.exists_mem_of_ne_nil tags hne
    obtain ⟨σs, hopen⟩ := hopens tag htag
    cases hopen with
    | constant hconstant => simp [hform] at hconstant
    | con hoffers => simp [hform, Form.Offers] at hoffers

end Complete

end Typecase.Match
