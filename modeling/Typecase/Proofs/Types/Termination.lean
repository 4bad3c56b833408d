import Typecase.Proofs.Types.SingleAssignment
import Typecase.Proofs.Types.Speculation
set_option autoImplicit false

/-!
# Unification comes to an end

Walks along links are cut off at the number of variables, and unification at a depth that is
fixed in advance.  Neither cut ever shows.

While a unification goes on the types grow, and variables are added.  But for each variable that
is added two others get a link, so there are never more than twice as many variables as in the
beginning.  What a variable is bound to is at most one deeper than the types at hand, and links
never run in a circle.  This bounds the levels below a type in every store that the unification
passes through.
-/

namespace Typecase

/-- Whether a variable has no link. -/
def VarState.isLoose : VarState → Bool
  | .linked _ => false
  | _ => true

theorem VarState.isLoose_iff {st : VarState} : st.isLoose = true ↔ ∀ t, st ≠ .linked t := by
  cases st <;> simp [isLoose]

theorem Ty.depthFields_le {ls : List (String × Ty)} {d : Nat} (h : ∀ f ∈ ls, f.2.depth ≤ d) :
    depthFields ls ≤ d := by
  induction ls with
  | nil => exact Nat.zero_le d
  | cons f ls ih =>
    rw [List.forall_mem_cons] at h
    exact Nat.max_le.mpr ⟨h.1, ih h.2⟩

theorem RowEnd.depth_toTy (e : RowEnd) : e.toTy.depth = 1 := by
  cases e <;> rfl

namespace Store

variable {s s' : Store} {kind : Var → Kind} {W : Set Ty} {R : Ty → Ty → Prop} {root t a b : Ty}
  {bound d n : Nat} {r : Except UnifyError Unit} {v : Var} {e : UnifyError} {α : Type}

/-! ## Walks along links -/

/-- Walks along links from `t` come to an end, and to the same end if more links may be
followed. -/
structure WalksEnd (s : Store) (t : Ty) : Prop where
  settled : s.Settled s.size t
  head : ∀ n, s.size ≤ n → s.headAt n t = s.head t
  reach : ∀ n, s.size ≤ n → s.reachAt n t = s.reach t
  flattenRow : ∀ n, s.size ≤ n → s.flattenAt n [] t = s.flattenRow t

theorem Settled.succ (h : s.Settled n t) : s.Settled (n + 1) t := by
  induction n generalizing t with
  | zero => exact fun v hv u hu => absurd hu (h v hv u)
  | succ n ih => exact fun v hv u hu => ih (h v hv u hu)

theorem Settled.le {m : Nat} (h : s.Settled n t) (hle : n ≤ m) : s.Settled m t := by
  induction hle with
  | refl => exact h
  | step _ ih => exact ih.succ

theorem Settled.headAt_succ (h : s.Settled n t) : s.headAt (n + 1) t = s.headAt n t := by
  induction n generalizing t with
  | zero =>
    cases t with
    | var v =>
      rw [Store.headAt]
      split
      · rename_i u hu
        exact absurd hu (h v (by simp [Ty.vars]) u)
      · rfl
    | _ => rfl
  | succ n ih =>
    cases t with
    | var v =>
      rw [Store.headAt, Store.headAt]
      split
      · rename_i u hu
        exact ih (h v (by simp [Ty.vars]) u hu)
      · rfl
    | _ => rfl

theorem Settled.reachAt_succ (h : s.Settled n t) : s.reachAt (n + 1) t = s.reachAt n t := by
  induction n generalizing t with
  | zero =>
    rw [reachAt, reachAt]
    refine (List.flatMap_congr ?_).trans (List.flatMap_singleton' _)
    intro v hv
    split
    · rename_i u hu
      exact absurd hu (h v hv u)
    · rfl
  | succ n ih =>
    rw [reachAt, reachAt]
    refine List.flatMap_congr ?_
    intro v hv
    split
    · rename_i u hu
      exact ih (h v hv u hu)
    · rfl

/-- What is done behind the links of a row determines its fields. -/
theorem flattenWith_congr {f g : LabelMap Ty → Ty → Option (LabelMap Ty × RowEnd)}
    (h : ∀ v ∈ t.vars, ∀ u, s.state v = .linked u → ∀ acc, f acc u = g acc u) (acc : LabelMap Ty) :
    s.flattenWith f acc t = s.flattenWith g acc t := by
  fun_induction s.flattenWith f acc t with
  | case1 acc m labels row ih =>
    rw [flattenWith]
    exact ih fun v hv => h v (by simp [Ty.vars, hv])
  | case2 acc v u hu =>
    rw [flattenWith, hu]
    exact h v (by simp [Ty.vars]) u hu acc
  | case3 acc v hv =>
    rw [flattenWith]
    split
    · rename_i u hu
      exact absurd hu (hv u)
    · rfl
  | case4 => rfl
  | case5 t _ hextend hvar hempty =>
    cases t with
    | rowExtend m ls row => exact absurd rfl (hextend m ls row)
    | var v => exact absurd rfl (hvar v)
    | rowEmpty => exact absurd rfl hempty
    | _ => rfl

theorem Settled.flattenAt_succ (h : s.Settled n t) (acc : LabelMap Ty) :
    s.flattenAt (n + 1) acc t = s.flattenAt n acc t := by
  induction n generalizing t acc with
  | zero => exact flattenWith_congr (fun v hv u hu => absurd hu (h v hv u)) acc
  | succ n ih => exact flattenWith_congr (fun v hv u hu acc => ih (h v hv u hu) acc) acc

theorem Resolvable.walksEnd (h : s.Resolvable t) : s.WalksEnd t where
  settled := h.settled
  head := by
    intro n hle
    induction hle with
    | refl => rfl
    | step hle ih => exact (h.settled.le hle).headAt_succ.trans ih
  reach := by
    intro n hle
    induction hle with
    | refl => rfl
    | step hle ih => exact (h.settled.le hle).reachAt_succ.trans ih
  flattenRow := by
    intro n hle
    induction hle with
    | refl => rfl
    | step hle ih => exact ((h.settled.le hle).flattenAt_succ []).trans ih

/-! ## Room for new variables -/

/-- The variables without a link. -/
def loose (s : Store) : Finset Var := (Finset.range s.size).filter fun v => (s.state v).isLoose

theorem mem_loose : v ∈ s.loose ↔ ∀ t, s.state v ≠ .linked t := by
  rw [loose, Finset.mem_filter, VarState.isLoose_iff, Finset.mem_range]
  exact ⟨And.right, fun h => ⟨lt_size_of_unlinked h, h⟩⟩

theorem card_loose_le (s : Store) : s.loose.card ≤ s.size :=
  Nat.le_trans (Finset.card_filter_le _ _) (Nat.le_of_eq (Finset.card_range _))

theorem Tuned.mem_loose {vs : List Var} (h : Tuned vs s s') (hv : v ∈ s'.loose) (hlt : v < s.size)
    (hvs : v ∉ vs) : v ∈ s.loose := by
  rw [Store.mem_loose] at hv ⊢
  exact fun t ht => hv t ((h.linked hlt hvs).mpr ht)

/-- A variable that is allocated may add to the variables without a link. -/
theorem Tuned.card_loose (h : Tuned [] s s') (hsize : s'.size = s.size + n) :
    s'.loose.card ≤ s.loose.card + n := by
  have hsub : s'.loose ⊆ s.loose ∪ (Finset.range n).image fun i => s.size + i := by
    intro v hv
    by_cases hlt : v < s.size
    · exact Finset.mem_union_left _ (h.mem_loose hv hlt List.not_mem_nil)
    · have hle : s.size ≤ v := Nat.not_lt.mp hlt
      have hlt' : v < s.size + n := hsize ▸ lt_size_of_unlinked (Store.mem_loose.mp hv)
      refine Finset.mem_union_right _ (Finset.mem_image.mpr ⟨v - s.size, ?_, ?_⟩)
      · exact Finset.mem_range.mpr (Nat.sub_lt_left_of_lt_add hle hlt')
      · exact Nat.add_sub_cancel' hle
  calc s'.loose.card
      ≤ (s.loose ∪ (Finset.range n).image fun i => s.size + i).card := Finset.card_le_card hsub
    _ ≤ s.loose.card + ((Finset.range n).image fun i => s.size + i).card :=
      Finset.card_union_le _ _
    _ ≤ s.loose.card + (Finset.range n).card := Nat.add_le_add_left Finset.card_image_le _
    _ = s.loose.card + n := by rw [Finset.card_range]

theorem Binds.card_loose (h : Binds v t s s') (hsize : s'.size = s.size) :
    s'.loose.card + 1 ≤ s.loose.card := by
  have hv : v ∈ s.loose := Store.mem_loose.mpr h.unlinked
  have hsub : s'.loose ⊆ s.loose.erase v := by
    intro u hu
    have hne : u ≠ v := by
      rintro rfl
      exact Store.mem_loose.mp hu t h.linked
    have hlt := lt_size_of_unlinked (Store.mem_loose.mp hu)
    refine Finset.mem_erase.mpr ⟨hne, h.tuned.mem_loose hu (hsize ▸ hlt) ?_⟩
    rwa [List.mem_singleton]
  have hcard := Finset.card_le_card hsub
  rw [Finset.card_erase_of_mem hv] at hcard
  have hpos := Finset.card_pos.mpr ⟨v, hv⟩
  omega

theorem bind_room (hv : ∀ w, s.state v ≠ .linked w) (hleveled : (s.state v).Leveled)
    (ht : s.Resolvable t) (h : bind v t s = (.ok (), s')) :
    s'.size = s.size ∧ s'.loose.card + 1 ≤ s.loose.card := by
  obtain ⟨hbinds, -⟩ := bind_ok hv hleveled ht h
  obtain ⟨s₁, -, -, hsize, ⟨⟨e, he⟩, -⟩ | ⟨-, rfl⟩⟩ := bind_outcome_tuned hv hleveled h
  · cases he
  · have hsize' : (s₁.link v t).size = s.size := by
      rw [link, size_setState, size_record, hsize]
    exact ⟨hsize', hbinds.card_loose hsize'⟩

theorem Completing.room {ls : LabelMap Ty} {e : RowEnd} (h : Completing kind W s v ls e)
    (hrun : complete v ls e s = (.ok (), s')) :
    s'.size = s.size ∧ s'.loose.card + 1 ≤ s.loose.card := by
  obtain ⟨t, s₁, hb, hbind⟩ := h.bindable hrun
  obtain ⟨hsize, hloose⟩ := bind_room hb.unlinked hb.leveled hb.resolvable hbind
  have hloose₁ : s₁.loose.card ≤ s.loose.card + 0 := hb.tuned.card_loose hb.size
  exact ⟨hsize.trans hb.size, Nat.le_trans hloose hloose₁⟩

theorem Ended.room (h : Ended kind W s (.ok ()) s') :
    s'.size + s'.loose.card ≤ s.size + s.loose.card := by
  cases h with
  | done => exact Nat.le_refl _
  | complete h hrun =>
    have hroom := h.room hrun
    omega
  | @newEnd _ _ l _ _ _ _ _ _ _ h hrun h' hrun' =>
    have hfresh := (fresh_tuned l s).card_loose (size_fresh s l)
    have hsize := size_fresh s l
    have hroom := h.room hrun
    have hroom' := h'.room hrun'
    omega

/-- For each variable that is added, one more gets a link than before. -/
theorem Course.room (h : Course kind W R root bound s r s') (hr : r = .ok ()) :
    s'.size + s'.loose.card ≤ s.size + s.loose.card := by
  induction h with
  | start => exact Nat.le_refl _
  | cut => cases hr
  | stuck => cases hr
  | bind _ hdue hxv hyt hv _ _ hrun ih =>
    subst hr
    have hroom := bind_room hv ((hdue.tidy.proper _ hdue.left).leads hxv).var.leveled
      ((hdue.tidy.resolvable _ hdue.right).leads hyt) hrun
    have hbefore := ih rfl
    omega
  | ends _ hrecords _ hrun ih =>
    subst hr
    exact Nat.le_trans (hrecords.ended hrun).room (ih rfl)

/-! ## Unification is not cut off -/

theorem adjust_not_cut {u : Var} {level : Int} (h : adjust v level t u s = (.error e, s')) :
    e ≠ .unbounded := by
  rw [adjust_eq] at h
  cases hu : s.state u with
  | generic =>
    rw [hu] at h
    cases h
    simp
  | linked t =>
    rw [hu] at h
    cases h
  | unbound l =>
    rw [hu] at h
    simp only at h
    split at h
    · cases h
      simp
    · split at h <;> cases h

theorem bind_not_cut (h : bind v t s = (.error e, s')) : e ≠ .unbounded := by
  have hforM : ∀ {us : List Var} {level : Int} {s : Store},
      us.forM (adjust v level t) s = (.error e, s') → e ≠ .unbounded := by
    intro us level s hrun
    induction us generalizing s with
    | nil => cases hrun
    | cons u us ih =>
      rcases bind_cases hrun with ⟨_, hfirst, heq⟩ | ⟨_, s₁, -, hrest⟩
      · cases heq
        exact adjust_not_cut hfirst
      · exact ih hrest
  unfold bind at h
  rcases bind_cases h with ⟨_, hget, -⟩ | ⟨_, _, hget, h⟩
  · cases hget
  · cases hget
    split at h
    · cases h
      simp
    · rcases bind_cases h with ⟨_, hadjust, heq⟩ | ⟨_, s₁, -, hlink⟩
      · cases heq
        exact hforM hadjust
      · cases hlink

theorem complete_not_cut {ls : LabelMap Ty} {a : RowEnd} (h : complete v ls a s = (.error e, s')) :
    e ≠ .unbounded := by
  rcases bind_cases h with ⟨_, hextend, -⟩ | ⟨_, s₁, -, hbind⟩
  · cases hextend
  · exact bind_not_cut hbind

theorem inherited_depth (hW : ∀ x ∈ W, x.depth ≤ d) (hd : 1 ≤ d) :
    Inherited W fun t => t.depth ≤ d + 1 where
  part := fun x hx => Nat.le_succ_of_le (hW x hx)
  ending := fun e => by
    rw [RowEnd.depth_toTy]
    omega
  row := by
    intro m ls e hls
    have hfields := Ty.depthFields_le fun f hf => hW f.2 (hls f hf)
    rw [Ty.depth, RowEnd.depth_toTy]
    omega

theorem Ended.not_cut (h : Ended kind W s r s') : r ≠ .error .unbounded := by
  cases h with
  | done => simp
  | fail he => simpa using he
  | complete _ hrun =>
    rintro rfl
    exact complete_not_cut hrun rfl
  | newEndFail _ _ _ hrun => simpa using complete_not_cut hrun
  | newEnd _ _ _ _ _ hrun =>
    rintro rfl
    exact complete_not_cut hrun rfl

/-- From a store with room enough, no type is met so far below the first one that the
unification would be cut off. -/
theorem Course.not_cut (h : Course kind W R root ((2 * n + 2) * (d + 2)) s r s')
    (hW : ∀ x ∈ W, x.depth ≤ d) (hroot : root ∈ W) (hs : s.AllLinks fun t => t.depth ≤ d + 1)
    (hroom : s.size + s.loose.card ≤ 2 * n) : r ≠ .error .unbounded := by
  have hd : 1 ≤ d := Nat.le_trans (Ty.depth_pos root) (hW root hroot)
  cases h with
  | start => simp
  | cut hc htidy hlevels hle =>
    have hlinks := hc.allLinks (inherited_depth hW hd) hs
    have hsize := Nat.le_trans (Nat.le_add_right _ _) (Nat.le_trans (hc.room rfl) hroom)
    have hlt := hlevels.lt_bound hlinks (htidy.resolvable root hroot) (hW root hroot) hsize
    exact absurd hlt (Nat.not_lt.mpr hle)
  | stuck _ _ _ he => simpa using he
  | bind _ _ _ _ _ _ _ hrun =>
    rintro rfl
    exact bind_not_cut hrun rfl
  | ends _ hrecords _ hrun => exact (hrecords.ended hrun).not_cut

/-! ## A greater depth changes nothing -/

/-- `m'` does what `m` does unless `m` is cut off. -/
def Refines {α : Type} (m m' : UnifyM α) : Prop :=
  ∀ s, (m s).1 ≠ .error .unbounded → m' s = m s

theorem Refines.refl (m : UnifyM α) : Refines m m := fun _ _ => rfl

theorem Refines.trans {m m' m'' : UnifyM α} (h : Refines m m') (h' : Refines m' m'') :
    Refines m m'' := by
  intro s hs
  have heq := h s hs
  exact (h' s (heq ▸ hs)).trans heq

theorem Refines.bind {β : Type} {m m' : UnifyM α} {k k' : α → UnifyM β} (h : Refines m m')
    (hk : ∀ a, Refines (k a) (k' a)) : Refines (m >>= k) (m' >>= k') := by
  intro s hs
  have hrun : ∀ (m : UnifyM α) (k : α → UnifyM β),
      (m >>= k) s = ExceptT.bindCont k (m s).1 (m s).2 := fun _ _ => rfl
  rw [hrun] at hs ⊢
  rw [hrun]
  cases hm : (m s).1 with
  | ok a =>
    rw [h s (by simp [hm]), hm]
    rw [hm] at hs
    exact hk a _ hs
  | error e =>
    have hne : (m s).1 ≠ .error .unbounded := by
      rw [hm] at hs ⊢
      rintro ⟨⟩
      exact hs rfl
    rw [h s hne, hm]
    rfl

section Refines

variable {inner inner' : Ty → Ty → UnifyM Unit}

theorem Refines.all (h : ∀ x y, Refines (inner x y) (inner' x y)) (as bs : List Ty) :
    Refines (unifyAll inner as bs) (unifyAll inner' as bs) := by
  induction as generalizing bs with
  | nil => exact .refl _
  | cons a as ih =>
    cases bs with
    | nil => exact .refl _
    | cons b bs => exact .bind (h a b) fun _ => ih bs

theorem Refines.rigid {e : RowEnd} {ls : LabelMap Ty} {error : String → UnifyError}
    {rest rest' : UnifyM Unit} (h : Refines rest rest') :
    Refines
      (match e, ls with
        | .rigid, (label, _) :: _ => do
          throw (error label)
          rest
        | _, _ => rest)
      (match e, ls with
        | .rigid, (label, _) :: _ => do
          throw (error label)
          rest'
        | _, _ => rest') := by
  cases e with
  | flexible v => exact h
  | rigid =>
    cases ls with
    | nil => exact h
    | cons f ls => exact .bind (.refl _) fun _ => h

theorem Refines.rows (h : ∀ x y, Refines (inner x y) (inner' x y)) (expected found a b : Ty) :
    Refines (unifyRows inner expected found a b) (unifyRows inner' expected found a b) := by
  unfold unifyRows
  refine .bind (.refl _) fun s => ?_
  split
  · split
    · rw [unifyShared_eq, unifyShared_eq]
      exact .rigid (.rigid (.bind (.all h _ _) fun _ => .refl _))
    · exact .refl _
  · exact .refl _

theorem Refines.heads (h : ∀ x y, Refines (inner x y) (inner' x y)) (a b : Ty) :
    Refines (unifyHeads inner a b) (unifyHeads inner' a b) := by
  unfold unifyHeads
  split
  · exact .refl _
  · split
    · exact .refl _
    · exact .refl _
    · split
      · exact .refl _
      · split
        · exact .refl _
        · exact .all h _ _
    · exact .bind (h _ _) fun _ => h _ _
    · split
      · exact .refl _
      · exact .all h _ _
    · exact .rows h _ _ _ _
    · exact .rows h _ _ _ _
    · exact .rows h _ _ _ _
    · exact .rows h _ _ _ _
    · exact .refl _

end Refines

theorem refines_unifyAt {m : Nat} (hle : n ≤ m) (a b : Ty) :
    Refines (unifyAt n a b) (unifyAt m a b) := by
  have hsucc : ∀ n a b, Refines (unifyAt n a b) (unifyAt (n + 1) a b) := by
    intro n
    induction n with
    | zero => exact fun a b s hs => absurd rfl hs
    | succ n ih => exact fun a b => .bind (.refl _) fun s => .heads ih _ _
  induction hle with
  | refl => exact .refl _
  | step _ ih => exact ih.trans (hsucc _ a b)

theorem foldl_linkDepth (cs : List Cell) (n : Nat) :
    n ≤ cs.foldl (fun d c => match c.state with
      | .linked t => max d t.depth
      | _ => d) n ∧
    ∀ c ∈ cs, ∀ t, c.state = .linked t → t.depth ≤ cs.foldl (fun d c => match c.state with
      | .linked t => max d t.depth
      | _ => d) n := by
  induction cs generalizing n with
  | nil => exact ⟨Nat.le_refl n, fun c hc => absurd hc List.not_mem_nil⟩
  | cons c cs ih =>
    rw [List.foldl_cons]
    obtain ⟨hle, hall⟩ := ih (match c.state with
      | .linked t => max n t.depth
      | _ => n)
    refine ⟨Nat.le_trans ?_ hle, ?_⟩
    · cases c.state with
      | linked t => exact Nat.le_max_left _ _
      | _ => exact Nat.le_refl n
    · intro c' hc' t ht
      rcases List.mem_cons.mp hc' with rfl | hc'
      · refine Nat.le_trans ?_ hle
        rw [ht]
        exact Nat.le_max_right _ _
      · exact hall c' hc' t ht

theorem depth_le_linkDepth (hlt : v < s.size) (ht : s.state v = .linked t) :
    t.depth ≤ s.linkDepth := by
  have hlt : v < s.cells.size := hlt
  have hmem : s.cell v ∈ s.cells.toList := by
    unfold cell
    rw [Array.getD_eq_getD_getElem?, Array.getElem?_eq_getElem hlt]
    exact Array.getElem_mem_toList hlt
  unfold linkDepth
  rw [← Array.foldl_toList]
  exact (foldl_linkDepth s.cells.toList 0).2 (s.cell v) hmem t ht

theorem PartOf.depth {x : Ty} (h : ∀ t ∈ [a, b], s.Resolvable t) (hx : s.PartOf [a, b] x) :
    x.depth ≤ max s.linkDepth (max a.depth b.depth) := by
  obtain ⟨t, ht, hbelow⟩ := hx
  have hlinks : ∀ v u, v < s.size → s.state v = .linked u →
      u.depth ≤ max s.linkDepth (max a.depth b.depth) := fun v u hlt hu =>
    Nat.le_trans (depth_le_linkDepth hlt hu) (Nat.le_max_left _ _)
  suffices hall : s.Resolvable x ∧ x.depth ≤ max s.linkDepth (max a.depth b.depth) from hall.2
  induction hbelow with
  | refl =>
    refine ⟨h t ht, ?_⟩
    simp only [List.mem_cons, List.not_mem_nil, or_false] at ht
    rcases ht with rfl | rfl <;> omega
  | tail _ hchild ih => exact ⟨ih.1.child hchild, ih.1.child_depth hlinks ih.2 hchild⟩

theorem Amenable.not_cut (h : s.Amenable [a, b]) : (unify a b s).1 ≠ .error .unbounded := by
  obtain ⟨kind, htidy⟩ := h.tidy
  have ha : a ∈ {x | s.PartOf [a, b] x} := ⟨a, by simp, .refl⟩
  have hb : b ∈ {x | s.PartOf [a, b] x} := ⟨b, by simp, .refl⟩
  refine (htidy.course_unify ha hb).not_cut (fun x hx => PartOf.depth h.finite hx) ha ?_ ?_
  · intro v t hlt ht
    have hle := depth_le_linkDepth hlt ht
    omega
  · have hle := card_loose_le s
    omega

/-! ## The stores that a unification passes through -/

/-- The store that a unification of `a` and `b` leaves while changes are recorded. -/
def recorded (a b : Ty) (s : Store) : Store := (unify a b (openTransaction s).2).2

/-- The earlier states of the variables that a unification of `a` and `b` changes, latest first. -/
def changes (a b : Ty) (s : Store) : List (Var × Cell) :=
  (recorded a b s).trail.take ((recorded a b s).trail.length - s.trail.length)

/-- The store before the last `k` changes that a unification of `a` and `b` makes to variables.
Variables that are allocated later are there already, as yet without a link. -/
def passed (a b : Ty) (s : Store) (k : Nat) : Store :=
  (recorded a b s).restore ((changes a b s).take k)

/-- The stores `passed` lead back from what a unification of `a` and `b` leaves to what it found,
by one variable at a time. -/
structure Rewinds (a b : Ty) (s : Store) (passed : Nat → Store) : Prop where
  last : (passed 0).bare = (unify a b s).2.bare
  change : ∀ k, ∃ v, ∀ u, u ≠ v → (passed (k + 1)).cell u = (passed k).cell u
  first : ∃ k, ∀ v < s.size, (passed k).cell v = s.cell v

theorem rewinds_passed (a b : Ty) (s : Store) : Rewinds a b s (passed a b s) where
  last := (unify_openTransaction a b s).2
  change := by
    intro k
    unfold passed
    rw [List.take_add_one, restore_append]
    cases (changes a b s)[k]? with
    | none => exact ⟨0, fun _ _ => rfl⟩
    | some e =>
      refine ⟨e.1, fun u hu => ?_⟩
      show (Store.setCell _ e.1 e.2).cell u = _
      rw [cell_setCell, if_neg fun h => hu h.1]
  first := by
    refine ⟨(changes a b s).length, fun v hv => ?_⟩
    unfold passed
    rw [List.take_length]
    exact (reversible_unify a b (openTransaction s).2).rollback.cell v hv

/-- With fewer links, walks come to an end all the more. -/
theorem Resolvable.fewer_links (h : s.Resolvable t) (hsize : s'.size = s.size)
    (hlinks : ∀ v u, s'.state v = .linked u → s.state v = .linked u) : s'.Resolvable t := by
  induction h with
  | intro hbound _ ih =>
    exact .intro (fun v hv => hsize.symm ▸ hbound v hv)
      fun v hv u hu => ih v hv u (hlinks v u hu)

/-- Links never run in a circle while a unification goes on. -/
theorem Amenable.passed_resolvable (h : s.Amenable [a, b]) (k : Nat)
    (hbound : ∀ v ∈ t.vars, v < (passed a b s k).size)
    (hold : ∀ v ∈ t.vars, v < s.size → s.Resolvable (.var v)) : (passed a b s k).Resolvable t := by
  obtain ⟨kind, htidy⟩ := h.tidy
  have ha : a ∈ {x | s.PartOf [a, b] x} := ⟨a, by simp, .refl⟩
  have hb : b ∈ {x | s.PartOf [a, b] x} := ⟨b, by simp, .refl⟩
  have hopen : Tuned [] s (openTransaction s).2 := ⟨Nat.le_refl _, fun _ _ _ => Or.inl rfl⟩
  have hpreserves : Preserves (openTransaction s).2 (recorded a b s) :=
    ((htidy.tuned hopen).course_unify ha hb).preserves
  obtain ⟨es, htrail, hes⟩ := hpreserves.writes
  have hchanges : changes a b s = es := by
    have hlength : (recorded a b s).trail.length - s.trail.length = es.length := by
      rw [htrail, List.length_append]
      exact Nat.add_sub_cancel _ _
    rw [changes, hlength, htrail]
    exact List.take_left
  -- every variable is in its last state or in one that it had before it got a link
  have hlinks : ∀ v u, (passed a b s k).state v = .linked u →
      (recorded a b s).state v = .linked u := by
    intro v u hu
    rcases cell_restore_cases (s := recorded a b s) ((changes a b s).take k) v with
      hcell | ⟨e, he, hcell⟩
    · exact (congrArg Cell.state hcell).symm.trans hu
    · have hmem : e ∈ es := hchanges ▸ List.mem_of_mem_take he
      exact absurd ((congrArg Cell.state hcell).symm.trans hu) (hes e hmem u)
  have hsize : (passed a b s k).size = (recorded a b s).size := size_restore _ _
  have hlast : (recorded a b s).Resolvable t := by
    refine .intro (fun v hv => hsize ▸ hbound v hv) fun v hv u hu => ?_
    refine Resolvable.link (hpreserves.finite v (hsize ▸ hbound v hv) fun hlt => ?_) hu
    exact (hold v hv hlt).tuned hopen fun _ hw => absurd hw List.not_mem_nil
  exact hlast.fewer_links hsize hlinks

/-! ## Termination -/

/-- The unification of two types comes to an end, whether it succeeds or fails.  It is not cut
off: to whatever greater depth the types may be unified, the result and the store that it leaves
are the same.  In every store that it passes through, walks along links come to an end as well,
from all types over variables that were finite in the beginning or are new. -/
theorem unify_terminates {a b : Ty} (h : s.Amenable [a, b]) :
    (unify a b s).1 ≠ .error .unbounded ∧
      (∀ n, s.unifyDepth a b ≤ n → unifyAt n a b s = unify a b s) ∧
      Rewinds a b s (passed a b s) ∧
      ∀ k t, (∀ v ∈ t.vars, v < (passed a b s k).size) →
        (∀ v ∈ t.vars, v < s.size → s.Resolvable (.var v)) → (passed a b s k).WalksEnd t :=
  ⟨h.not_cut, fun _ hle => refines_unifyAt hle a b s h.not_cut, rewinds_passed a b s,
    fun k _ hbound hold => (h.passed_resolvable k hbound hold).walksEnd⟩

theorem unify_terminates_twoOpen :
    twoOpen.Amenable [withX, withY] ∧ (unify withX withY twoOpen).1 ≠ .error .unbounded ∧
      (passed withX withY twoOpen 1).WalksEnd withX := by
  have h := twoOpen_disciplined.amenable
  obtain ⟨hresult, -, -, hwalks⟩ := unify_terminates h
  refine ⟨h, hresult, hwalks 1 withX (by decide +kernel) ?_⟩
  intro v hv _
  exact (h.finite withX (by simp)).mono (by simpa [Ty.vars] using hv)

end Store

end Typecase
