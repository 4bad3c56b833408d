import Typecase.Dump.Decode
set_option autoImplicit false

/-!
# Writing program dumps

Every program can be dumped: there is a node for each form of the syntax, with any of its optional
parts, and the program that is read from it is the same, positions included.  The one exception
are patterns that are real numbers, for which dumps have no form.
-/

namespace Typecase.Text

theorem digits?_toDigits (n : Nat) : digits? (Nat.toDigits 10 n) = some n := by
  have hfold : ∀ (cs : List Char) (k : Nat), (∀ c ∈ cs, c.isDigit = true) →
      cs.foldlM (fun n c => if c.isDigit then some (10 * n + (c.toNat - 48)) else none) k =
        some (Nat.ofDigitChars 10 cs k) := by
    intro cs
    induction cs with
    | nil => exact fun _ _ => rfl
    | cons c cs ih =>
      intro k hcs
      rw [List.forall_mem_cons] at hcs
      rw [List.foldlM_cons, if_pos hcs.1, Option.bind_eq_bind, Option.bind_some, ih _ hcs.2]
      rfl
  have hdigits : ∀ c ∈ Nat.toDigits 10 n, c.isDigit = true :=
    fun c hc => Nat.isDigit_of_mem_toDigits (by decide) (by decide) hc
  rw [digits?, if_neg (by simp [Nat.toDigits_ne_nil]), hfold _ _ hdigits,
    Nat.ofDigitChars_ten_toDigits]

theorem toIntegerOrZero_toString {n : Int} (hleast : least ≤ n) (hgreatest : n ≤ greatest) :
    toIntegerOrZero (toString n) = n := by
  have hclamp : clamp n = .exact n := by
    rw [clamp, if_neg (by omega), if_neg (by omega)]
  have hread : readInteger (toString n) = clamp n := by
    unfold readInteger
    cases n with
    | ofNat m =>
      have hdigit : ∀ c cs, Nat.toDigits 10 m = c :: cs → c.isDigit = true := fun c cs h =>
        Nat.isDigit_of_mem_toDigits (by decide) (by decide) (h ▸ List.mem_cons_self)
      have htext : (toString (Int.ofNat m)).toList = Nat.toDigits 10 m := Nat.toList_repr
      rw [htext]
      split
      · exact absurd (hdigit _ _ ‹_›) (by decide)
      · exact absurd (hdigit _ _ ‹_›) (by decide)
      · rw [digits?_toDigits]
        rfl
    | negSucc m =>
      have htext : (toString (Int.negSucc m)).toList = '-' :: Nat.toDigits 10 (m + 1) :=
        String.toList_append.trans (congrArg ('-' :: ·) Nat.toList_repr)
      simp only [htext, digits?_toDigits]
      rfl
  rw [toIntegerOrZero, hread, hclamp]

end Typecase.Text

namespace Typecase.Source

theorem Pattern.sizeOf_field {pos : Pos} {fs : List (String × Pattern)} {flexible : Bool}
    {f : String × Pattern} (h : f ∈ fs) : sizeOf f < sizeOf (Pattern.record pos fs flexible) := by
  have := List.sizeOf_lt_of_mem h
  simp only [Pattern.record.sizeOf_spec]
  omega

mutual

/-- Dumps have a form for the pattern: no part of it is a real number. -/
def Pattern.Dumpable : Pattern → Prop
  | .wildcard _ | .var _ _ | .con _ _ none => True
  | .literal _ l => l.kind ≠ .real
  | .con _ _ (some p) | .layered _ _ p | .annot _ p _ => p.Dumpable
  | .tuple _ ps | .list _ ps => ∀ p ∈ ps, p.Dumpable
  | .record _ fs _ => ∀ f ∈ fs, Pattern.FieldDumpable f
termination_by p => sizeOf p
decreasing_by all_goals first | exact Pattern.sizeOf_field ‹_› | decreasing_tactic

def Pattern.FieldDumpable : String × Pattern → Prop
  | (_, p) => p.Dumpable
termination_by f => sizeOf f

end

mutual

/-- Dumps have a form for all patterns of the expression. -/
def Expr.Dumpable : Expr → Prop
  | .literal _ _ | .var _ _ | .selector _ _ => True
  | .app _ a b | .andalso _ a b | .orelse _ a b => a.Dumpable ∧ b.Dumpable
  | .fn _ rs => ∀ r ∈ rs, r.Dumpable
  | .case _ e rs | .handle _ e rs => e.Dumpable ∧ ∀ r ∈ rs, r.Dumpable
  | .letIn _ ds e => (∀ d ∈ ds, d.Dumpable) ∧ e.Dumpable
  | .tuple _ es | .list _ es | .seq _ es => ∀ e ∈ es, e.Dumpable
  | .record _ fs => ∀ f ∈ fs, Expr.FieldDumpable f
  | .cond _ c a b => c.Dumpable ∧ a.Dumpable ∧ b.Dumpable
  | .raise _ e | .annot _ e _ => e.Dumpable

def Expr.FieldDumpable : String × Expr → Prop
  | (_, e) => e.Dumpable

def Rule.Dumpable : Rule → Prop
  | ⟨_, p, none, e⟩ => p.Dumpable ∧ e.Dumpable
  | ⟨_, p, some g, e⟩ => p.Dumpable ∧ g.Dumpable ∧ e.Dumpable

def Decl.Dumpable : Decl → Prop
  | .val _ _ p e => p.Dumpable ∧ e.Dumpable
  | .functions _ bs => ∀ b ∈ bs, b.Dumpable
  | .datatypes _ _ | .abbreviation _ _ _ _ | .exceptions _ _ => True
  | .localIn _ ds ds' => (∀ d ∈ ds, d.Dumpable) ∧ ∀ d ∈ ds', d.Dumpable

def FunBinding.Dumpable : FunBinding → Prop
  | ⟨_, _, cs⟩ => ∀ c ∈ cs, c.Dumpable

def FunClause.Dumpable : FunClause → Prop
  | ⟨_, ps, _, e⟩ => (∀ p ∈ ps, p.Dumpable) ∧ e.Dumpable

end

end Typecase.Source

namespace Typecase.Dump

open Source Yaml

/-! ## Nodes -/

def text (s : String) : Node := .scalar .none s .quoted

def sequence (items : List Node) : Node := .sequence .none items

def truth (b : Bool) : Node := .scalar .none (if b then "true" else "false") .plain

/-- The keys for a position.  Numbers that cannot be read are left out. -/
def posFields (p : Pos) : List (String × Node) :=
  if (Text.least ≤ p.line ∧ p.line ≤ Text.greatest) ∧ Text.least ≤ p.col ∧ p.col ≤ Text.greatest
  then [("line", text (toString p.line)), ("col", text (toString p.col))]
  else []

/-- A mapping with a kind and a position. -/
def node (kind : String) (pos : Pos) (fields : List (String × Node)) : Node :=
  .mapping pos ((("kind", text kind) :: posFields pos ++ fields).map fun f => (text f.1, f.2))

section Node

variable {kind key x : String} {pos p : Pos} {fields : List (String × Node)} {style : Style}
  {d : Nat}

theorem field?_fields : (Node.mapping pos (fields.map fun f => (text f.1, f.2))).field? key =
    (fields.find? (·.1 == key)).map (·.2) := by
  simp only [Node.field?, List.find?_map, Option.map_map]
  rfl

theorem node_ne_scalar : node kind pos fields ≠ .scalar p x style := nofun

theorem kindOf_node : kindOf (node kind pos fields) = .ok kind := rfl

theorem field?_node (hkey : "kind" ≠ key ∧ "line" ≠ key ∧ "col" ≠ key) :
    (node kind pos fields).field? key = (fields.find? (·.1 == key)).map (·.2) := by
  rw [node, field?_fields, posFields]
  split <;> simp [hkey]

theorem posOf_node (hline : fields.find? (·.1 == "line") = none)
    (hcol : fields.find? (·.1 == "col") = none) : posOf (node kind pos fields) = pos := by
  unfold posOf
  rw [node, field?_fields, field?_fields]
  generalize hnumbers : posFields pos = numbers
  unfold posFields at hnumbers
  split at hnumbers <;> subst hnumbers
  · rename_i hrange
    show Pos.mk (Text.toIntegerOrZero (toString pos.line))
      (Text.toIntegerOrZero (toString pos.col)) = pos
    rw [Text.toIntegerOrZero_toString hrange.1.1 hrange.1.2,
      Text.toIntegerOrZero_toString hrange.2.1 hrange.2.2]
  · simp [hline, hcol, Node.pos]

theorem depth_le_depthItems {ns : List Node} {n : Node} (hn : n ∈ ns) :
    n.depth ≤ Node.depthItems ns := by
  induction hn with
  | head ns => exact Nat.le_max_left _ _
  | tail m _ ih => exact Nat.le_trans ih (Nat.le_max_right _ _)

theorem depth_le_depthEntries {es : List (Node × Node)} {e : Node × Node} (he : e ∈ es) :
    e.2.depth ≤ Node.depthEntries es := by
  induction he with
  | head es => exact Nat.le_trans (Nat.le_max_right _ _) (Nat.le_max_left _ _)
  | tail e' _ ih => exact Nat.le_trans ih (Nat.le_max_right _ _)

/-- The plain scalars for the truth values stand for them. -/
def ReadsTruth (isTrue : Node → Bool) : Prop :=
  ∀ pos, isTrue (.scalar pos "true" .plain) = true ∧ isTrue (.scalar pos "false" .plain) = false

theorem ReadsTruth.truth {isTrue : Node → Bool} (h : ReadsTruth isTrue) (b : Bool) :
    isTrue (truth b) = b := by
  cases b with
  | true => exact (h .none).1
  | false => exact (h .none).2

theorem readsTruth_isTrue : ReadsTruth Node.isTrue := by
  have hvalues : (Value.ofScalar? "true" .plain).bind Value.toTruth? = some true ∧
      (Value.ofScalar? "false" .plain).bind Value.toTruth? = some false := by
    decide +kernel
  intro pos
  simp [Node.isTrue, Node.target, hvalues]

variable {α : Type} {dec : Nat → Node → Result α} {a : α}

/-- The node `n` is read as `a`, whatever bound for its depth is given. -/
def Decodes (dec : Nat → Node → Result α) (n : Node) (a : α) : Prop :=
  ∀ d, n.depth ≤ d → dec d n = .ok a

theorem depth_fields (hd : (node kind pos fields).depth ≤ d + 1) : ∀ f ∈ fields, f.2.depth ≤ d := by
  intro f hf
  have hentry : (text f.1, f.2) ∈ (("kind", text kind) :: posFields pos ++ fields).map fun f =>
    (text f.1, f.2) := List.mem_map_of_mem (List.mem_append_right _ hf)
  exact Nat.le_trans (depth_le_depthEntries hentry) (Nat.le_of_succ_le_succ hd)

theorem Decodes.node
    (h : ∀ d, (∀ f ∈ fields, f.2.depth ≤ d) → dec (d + 1) (node kind pos fields) = .ok a) :
    Decodes dec (node kind pos fields) a
  | 0, hd => absurd hd (Nat.not_succ_le_zero _)
  | d + 1, hd => h d (depth_fields hd)

/-- A node that is read with the bound for the node that it belongs to. -/
theorem Decodes.part
    (h : ∀ d, (∀ f ∈ fields, f.2.depth ≤ d) → dec d (Dump.node kind pos fields) = .ok a) :
    Decodes dec (Dump.node kind pos fields) a :=
  fun d hd => h d (depth_fields (Nat.le_succ_of_le hd))

theorem mapM_map {f : Node → Result α} {enc : α → Node} {as : List α}
    (h : ∀ a ∈ as, f (enc a) = .ok a) : (as.map enc).mapM f = .ok as := by
  induction as with
  | nil => rfl
  | cons a as ih =>
    rw [List.forall_mem_cons] at h
    rw [List.map_cons, List.mapM_cons, h.1, ih h.2]
    rfl

theorem decodes_list {enc : α → Node} {as : List α} (h : ∀ a ∈ as, Decodes dec (enc a) a)
    (hd : (Node.sequence .none (as.map enc)).depth ≤ d) : (as.map enc).mapM (dec d) = .ok as :=
  mapM_map fun a ha => h a ha d
    (Nat.le_trans (depth_le_depthItems (List.mem_map_of_mem ha)) (Nat.le_of_succ_le hd))

end Node

/-! ## Types and patterns -/

mutual

def encodeType : TypeExpr → Node
  | .var pos x => node "var" pos [("name", text x)]
  | .con pos x args => node "con" pos [("name", text x), ("args", sequence (args.map encodeType))]
  | .arrow pos a r => node "arrow" pos [("arg", encodeType a), ("return", encodeType r)]
  | .tuple pos es => node "tuple" pos [("elems", sequence (es.map encodeType))]
  | .record pos fs => node "record" pos [("fields", sequence (fs.map encodeTypeField))]

def encodeTypeField : String × TypeExpr → Node
  | (l, t) => node "field" .none [("label", text l), ("type", encodeType t)]

end

mutual

def encodePattern : Source.Pattern → Node
  | .wildcard pos => node "wild" pos []
  | .var pos x => node "var" pos [("name", text x)]
  | .literal pos l => node l.kind.name pos [("value", text l.text)]
  | .con pos x none => node "con" pos [("name", text x)]
  | .con pos x (some p) => node "con" pos [("name", text x), ("arg", encodePattern p)]
  | .tuple pos ps => node "tuple" pos [("elems", sequence (ps.map encodePattern))]
  | .record pos fs flexible => node "record" pos [("flexible", truth flexible),
      ("fields", sequence (fs.map encodePatternField))]
  | .layered pos x p => node "as" pos [("name", text x), ("pattern", encodePattern p)]
  | .list pos ps => node "list" pos [("elems", sequence (ps.map encodePattern))]
  | .annot pos p t => node "annot" pos [("pattern", encodePattern p), ("type", encodeType t)]
termination_by p => sizeOf p
decreasing_by all_goals first | exact Pattern.sizeOf_field ‹_› | decreasing_tactic

def encodePatternField : String × Source.Pattern → Node
  | (l, p) => node "field" .none [("label", text l), ("pattern", encodePattern p)]
termination_by f => sizeOf f

end

attribute [local simp] node_ne_scalar kindOf_node posOf_node field?_node textAt
  textOrEmpty itemsAt valueAt flag Node.scalar? text sequence bind Except.bind pure Except.pure
  Functor.map Except.map

mutual

theorem decode_encodeType : (t : TypeExpr) → Decodes decodeType (encodeType t) t
  | .var pos x => by
    rw [encodeType]
    exact .node fun d _ => by simp [decodeType]
  | .con pos _ ts | .tuple pos ts => by
    rw [encodeType]
    have hts := fun d => decodes_list (d := d) fun t (_ : t ∈ ts) => decode_encodeType t
    exact .node fun d hd => by simp_all [decodeType]
  | .arrow pos a r => by
    rw [encodeType]
    have ha := decode_encodeType a
    have hr := decode_encodeType r
    exact .node fun d hd => by simp_all [decodeType, Decodes]
  | .record pos fs => by
    rw [encodeType]
    have hfs := fun d => decodes_list (d := d) fun f (_ : f ∈ fs) => decode_encodeTypeField f
    exact .node fun d hd => by simp_all [decodeType]

theorem decode_encodeTypeField : (f : String × TypeExpr) →
    Decodes (fun d => decodeField "type" (decodeType d)) (encodeTypeField f) f
  | (l, t) => by
    rw [encodeTypeField]
    have ht := decode_encodeType t
    exact .part fun d hd => by simp_all [decodeField, Decodes]

end

variable {isTrue : Node → Bool}

mutual

theorem decode_encodePattern (htrue : ReadsTruth isTrue) : (p : Source.Pattern) → p.Dumpable →
    Decodes (decodePattern isTrue) (encodePattern p) p
  | .wildcard pos, _ => by
    rw [encodePattern]
    exact .node fun d _ => by
      simp [decodePattern]
      exact posOf_node rfl rfl
  | .var pos x, _ | .con pos x none, _ => by
    rw [encodePattern]
    exact .node fun d _ => by simp [decodePattern]
  | .literal pos ⟨kind, x⟩, h => by
    rw [encodePattern]
    rw [Pattern.Dumpable] at h
    refine .node fun d _ => ?_
    cases kind <;> simp_all [decodePattern, LiteralKind.name]
  | .con pos x (some p), h | .layered pos x p, h => by
    rw [encodePattern]
    rw [Pattern.Dumpable] at h
    have hp := decode_encodePattern htrue p h
    exact .node fun d hd => by simp_all [decodePattern, Decodes]
  | .tuple pos ps, h | .list pos ps, h => by
    rw [encodePattern]
    rw [Pattern.Dumpable] at h
    have hps := fun d => decodes_list (d := d) fun p hp => decode_encodePattern htrue p (h p hp)
    exact .node fun d hd => by simp_all [decodePattern]
  | .record pos fs flexible, h => by
    rw [encodePattern]
    rw [Pattern.Dumpable] at h
    have hfs := fun d => decodes_list (d := d) fun f hf =>
      decode_encodePatternField htrue f (h f hf)
    have htruth := htrue.truth flexible
    exact .node fun d hd => by simp_all [decodePattern]
  | .annot pos p t, h => by
    rw [encodePattern]
    rw [Pattern.Dumpable] at h
    have hp := decode_encodePattern htrue p h
    have ht := decode_encodeType t
    exact .node fun d hd => by simp_all [decodePattern, Decodes]
termination_by p => sizeOf p
decreasing_by all_goals first | exact Pattern.sizeOf_field ‹_› | decreasing_tactic

theorem decode_encodePatternField (htrue : ReadsTruth isTrue) :
    (f : String × Source.Pattern) → Pattern.FieldDumpable f →
    Decodes (fun d => decodePatternField (decodePattern isTrue d)) (encodePatternField f) f
  | (l, p), h => by
    rw [encodePatternField]
    rw [Pattern.FieldDumpable] at h
    have hp := decode_encodePattern htrue p h
    exact .part fun d hd => by simp_all [decodePatternField, Decodes]
termination_by f => sizeOf f

end

/-! ## Expressions and declarations -/

def encodeConBinding : ConBinding → Node
  | ⟨pos, x, none⟩ => node "constructor" pos [("name", text x)]
  | ⟨pos, x, some t⟩ => node "constructor" pos [("name", text x), ("arg", encodeType t)]

def encodeDatatype (b : DatatypeBinding) : Node :=
  node "binding" b.pos [("params", sequence (b.params.map text)), ("name", text b.name),
    ("constructors", sequence (b.constructors.map encodeConBinding))]

mutual

def encodeExpr : Expr → Node
  | .literal pos l => node l.kind.name pos [("value", text l.text)]
  | .var pos x => node "var" pos [("name", text x)]
  | .app pos f e => node "app" pos [("func", encodeExpr f), ("arg", encodeExpr e)]
  | .fn pos rs => node "fn" pos [("rules", sequence (rs.map encodeRule))]
  | .case pos e rs =>
    node "case" pos [("expr", encodeExpr e), ("rules", sequence (rs.map encodeRule))]
  | .letIn pos ds e =>
    node "let" pos [("decls", sequence (ds.map encodeDecl)), ("body", encodeExpr e)]
  | .tuple pos es => node "tuple" pos [("elems", sequence (es.map encodeExpr))]
  | .record pos fs => node "record" pos [("fields", sequence (fs.map encodeField))]
  | .selector pos l => node "select" pos [("label", text l)]
  | .list pos es => node "list" pos [("elems", sequence (es.map encodeExpr))]
  | .seq pos es => node "seq" pos [("exprs", sequence (es.map encodeExpr))]
  | .cond pos c a b =>
    node "if" pos [("cond", encodeExpr c), ("then", encodeExpr a), ("else", encodeExpr b)]
  | .andalso pos a b => node "andalso" pos [("left", encodeExpr a), ("right", encodeExpr b)]
  | .orelse pos a b => node "orelse" pos [("left", encodeExpr a), ("right", encodeExpr b)]
  | .raise pos e => node "raise" pos [("expr", encodeExpr e)]
  | .handle pos e rs =>
    node "handle" pos [("expr", encodeExpr e), ("rules", sequence (rs.map encodeRule))]
  | .annot pos e t => node "annot" pos [("expr", encodeExpr e), ("type", encodeType t)]

def encodeField : String × Expr → Node
  | (l, e) => node "field" .none [("label", text l), ("value", encodeExpr e)]

def encodeRule : Rule → Node
  | ⟨pos, p, none, e⟩ => node "rule" pos [("pattern", encodePattern p), ("body", encodeExpr e)]
  | ⟨pos, p, some g, e⟩ => node "rule" pos
      [("pattern", encodePattern p), ("guard", encodeExpr g), ("body", encodeExpr e)]

def encodeDecl : Decl → Node
  | .val pos isRec p e => node "val" pos
      [("rec", truth isRec), ("pattern", encodePattern p), ("expr", encodeExpr e)]
  | .functions pos bs => node "fun" pos [("bindings", sequence (bs.map encodeFunction))]
  | .datatypes pos bs => node "datatype" pos [("bindings", sequence (bs.map encodeDatatype))]
  | .abbreviation pos params x t => node "type" pos
      [("params", sequence (params.map text)), ("name", text x), ("type", encodeType t)]
  | .exceptions pos cs =>
    node "exception" pos [("constructors", sequence (cs.map encodeConBinding))]
  | .localIn pos ds ds' => node "local" pos
      [("decls", sequence (ds.map encodeDecl)), ("body", sequence (ds'.map encodeDecl))]

def encodeFunction : FunBinding → Node
  | ⟨pos, x, cs⟩ => node "binding" pos
      [("name", text x), ("clauses", sequence (cs.map encodeClause))]

def encodeClause : FunClause → Node
  | ⟨pos, ps, none, e⟩ => node "clause" pos
      [("params", sequence (ps.map encodePattern)), ("body", encodeExpr e)]
  | ⟨pos, ps, some t, e⟩ => node "clause" pos
      [("params", sequence (ps.map encodePattern)), ("result", encodeType t),
        ("body", encodeExpr e)]

end

theorem decode_encodeConBinding : (c : ConBinding) → Decodes decodeConBinding (encodeConBinding c) c
  | ⟨pos, x, none⟩ => .part fun d _ => by simp [decodeConBinding]
  | ⟨pos, x, some t⟩ => .part fun d hd => by
    have ht := decode_encodeType t
    simp_all [decodeConBinding, Decodes]

theorem map_text (xs : List String) : (xs.map text).map Node.text = xs := by
  rw [List.map_map]
  exact List.map_id xs

theorem decode_encodeDatatype (b : DatatypeBinding) :
    Decodes decodeDatatype (encodeDatatype b) b := by
  have hcons := fun d => decodes_list (d := d) fun c (_ : c ∈ b.constructors) =>
    decode_encodeConBinding c
  have hparams := map_text b.params
  exact .part fun d hd => by simp_all [decodeDatatype, textsAt]

theorem decode_decls {ds : List Decl} (h : ∀ d ∈ ds, Decodes (decodeDecl isTrue) (encodeDecl d) d) :
    Decodes (decodeDecls isTrue) (sequence (ds.map encodeDecl)) ds
  | 0, hd => absurd hd (Nat.not_succ_le_zero _)
  | d + 1, hd => by
    rw [decodeDecls]
    exact mapM_map fun a ha => h a ha d
      (Nat.le_trans (depth_le_depthItems (List.mem_map_of_mem ha)) (Nat.le_of_succ_le_succ hd))

mutual

theorem decode_encodeExpr (htrue : ReadsTruth isTrue) : (e : Expr) → e.Dumpable →
    Decodes (decodeExpr isTrue) (encodeExpr e) e
  | .literal pos ⟨kind, x⟩, _ => by
    rw [encodeExpr]
    refine .node fun d _ => ?_
    cases kind <;> simp [decodeExpr, LiteralKind.name]
  | .var pos x, _ | .selector pos x, _ => by
    rw [encodeExpr]
    exact .node fun d _ => by simp [decodeExpr]
  | .app pos a b, h | .andalso pos a b, h | .orelse pos a b, h => by
    rw [encodeExpr]
    rw [Expr.Dumpable] at h
    have ha := decode_encodeExpr htrue a h.1
    have hb := decode_encodeExpr htrue b h.2
    exact .node fun d hd => by simp_all [decodeExpr, Decodes]
  | .fn pos rs, h => by
    rw [encodeExpr]
    rw [Expr.Dumpable] at h
    have hrs := fun d => decodes_list (d := d) fun r hr => decode_encodeRule htrue r (h r hr)
    exact .node fun d hd => by simp_all [decodeExpr]
  | .case pos e rs, h | .handle pos e rs, h => by
    rw [encodeExpr]
    rw [Expr.Dumpable] at h
    have he := decode_encodeExpr htrue e h.1
    have hrs := fun d => decodes_list (d := d) fun r hr => decode_encodeRule htrue r (h.2 r hr)
    exact .node fun d hd => by simp_all [decodeExpr, Decodes]
  | .letIn pos ds e, h => by
    rw [encodeExpr]
    rw [Expr.Dumpable] at h
    have hds := decode_decls fun d hd => decode_encodeDecl htrue d (h.1 d hd)
    have he := decode_encodeExpr htrue e h.2
    exact .node fun d hd => by simp_all [decodeExpr, Decodes]
  | .tuple pos es, h | .list pos es, h | .seq pos es, h => by
    rw [encodeExpr]
    rw [Expr.Dumpable] at h
    have hes := fun d => decodes_list (d := d) fun e he => decode_encodeExpr htrue e (h e he)
    exact .node fun d hd => by simp_all [decodeExpr]
  | .record pos fs, h => by
    rw [encodeExpr]
    rw [Expr.Dumpable] at h
    have hfs := fun d => decodes_list (d := d) fun f hf => decode_encodeField htrue f (h f hf)
    exact .node fun d hd => by simp_all [decodeExpr]
  | .cond pos c a b, h => by
    rw [encodeExpr]
    rw [Expr.Dumpable] at h
    have hc := decode_encodeExpr htrue c h.1
    have ha := decode_encodeExpr htrue a h.2.1
    have hb := decode_encodeExpr htrue b h.2.2
    exact .node fun d hd => by simp_all [decodeExpr, Decodes]
  | .raise pos e, h => by
    rw [encodeExpr]
    rw [Expr.Dumpable] at h
    have he := decode_encodeExpr htrue e h
    exact .node fun d hd => by simp_all [decodeExpr, Decodes]
  | .annot pos e t, h => by
    rw [encodeExpr]
    rw [Expr.Dumpable] at h
    have he := decode_encodeExpr htrue e h
    have ht := decode_encodeType t
    exact .node fun d hd => by simp_all [decodeExpr, Decodes]

theorem decode_encodeField (htrue : ReadsTruth isTrue) :
    (f : String × Expr) → Expr.FieldDumpable f →
    Decodes (fun d => decodeField "value" (decodeExpr isTrue d)) (encodeField f) f
  | (l, e), h => by
    rw [encodeField]
    rw [Expr.FieldDumpable] at h
    have he := decode_encodeExpr htrue e h
    exact .part fun d hd => by simp_all [decodeField, Decodes]

theorem decode_encodeRule (htrue : ReadsTruth isTrue) : (r : Rule) → r.Dumpable →
    Decodes (fun d => decodeRule isTrue d (decodeExpr isTrue d)) (encodeRule r) r
  | ⟨pos, p, none, e⟩, h => by
    rw [encodeRule]
    rw [Rule.Dumpable] at h
    have hp := decode_encodePattern htrue p h.1
    have he := decode_encodeExpr htrue e h.2
    exact .part fun d hd => by simp_all [decodeRule, Decodes]
  | ⟨pos, p, some g, e⟩, h => by
    rw [encodeRule]
    rw [Rule.Dumpable] at h
    have hp := decode_encodePattern htrue p h.1
    have hg := decode_encodeExpr htrue g h.2.1
    have he := decode_encodeExpr htrue e h.2.2
    exact .part fun d hd => by simp_all [decodeRule, Decodes]

theorem decode_encodeDecl (htrue : ReadsTruth isTrue) : (d : Decl) → d.Dumpable →
    Decodes (decodeDecl isTrue) (encodeDecl d) d
  | .val pos isRec p e, h => by
    rw [encodeDecl]
    rw [Decl.Dumpable] at h
    have hp := decode_encodePattern htrue p h.1
    have he := decode_encodeExpr htrue e h.2
    have htruth := htrue.truth isRec
    exact .node fun d hd => by simp_all [decodeDecl, Decodes]
  | .functions pos bs, h => by
    rw [encodeDecl]
    rw [Decl.Dumpable] at h
    have hbs := fun d => decodes_list (d := d) fun b hb => decode_encodeFunction htrue b (h b hb)
    exact .node fun d hd => by simp_all [decodeDecl]
  | .datatypes pos bs, _ => by
    rw [encodeDecl]
    have hbs := fun d => decodes_list (d := d) fun b (_ : b ∈ bs) => decode_encodeDatatype b
    exact .node fun d hd => by simp_all [decodeDecl]
  | .abbreviation pos params x t, _ => by
    rw [encodeDecl]
    have hparams := map_text params
    have ht := decode_encodeType t
    exact .node fun d hd => by simp_all [decodeDecl, textsAt, Decodes]
  | .exceptions pos cs, _ => by
    rw [encodeDecl]
    have hcs := fun d => decodes_list (d := d) fun c (_ : c ∈ cs) => decode_encodeConBinding c
    exact .node fun d hd => by simp_all [decodeDecl]
  | .localIn pos ds ds', h => by
    rw [encodeDecl]
    rw [Decl.Dumpable] at h
    have hds := decode_decls fun d hd => decode_encodeDecl htrue d (h.1 d hd)
    have hds' := decode_decls fun d hd => decode_encodeDecl htrue d (h.2 d hd)
    exact .node fun d hd => by simp_all [decodeDecl, Decodes]

theorem decode_encodeFunction (htrue : ReadsTruth isTrue) : (b : FunBinding) → b.Dumpable →
    Decodes (fun d => decodeFunction isTrue d (decodeExpr isTrue d)) (encodeFunction b) b
  | ⟨pos, x, cs⟩, h => by
    rw [encodeFunction]
    rw [FunBinding.Dumpable] at h
    have hcs := fun d => decodes_list (d := d) fun c hc => decode_encodeClause htrue c (h c hc)
    exact .part fun d hd => by simp_all [decodeFunction]

theorem decode_encodeClause (htrue : ReadsTruth isTrue) : (c : FunClause) → c.Dumpable →
    Decodes (fun d => decodeClause isTrue d (decodeExpr isTrue d)) (encodeClause c) c
  | ⟨pos, ps, none, e⟩, h => by
    rw [encodeClause]
    rw [FunClause.Dumpable] at h
    have hps := fun d => decodes_list (d := d) fun p hp => decode_encodePattern htrue p (h.1 p hp)
    have he := decode_encodeExpr htrue e h.2
    exact .part fun d hd => by simp_all [decodeClause, Decodes]
  | ⟨pos, ps, some t, e⟩, h => by
    rw [encodeClause]
    rw [FunClause.Dumpable] at h
    have hps := fun d => decodes_list (d := d) fun p hp => decode_encodePattern htrue p (h.1 p hp)
    have ht := decode_encodeType t
    have he := decode_encodeExpr htrue e h.2
    exact .part fun d hd => by simp_all [decodeClause, Decodes]

end

/-- A program without real numbers as patterns is read from its dump as it was, whatever else is
taken for truth. -/
theorem decodeProgram_dump (htrue : ReadsTruth isTrue) {p : Program} (h : ∀ d ∈ p, d.Dumpable) :
    decodeProgram isTrue (some (sequence (p.map encodeDecl))) = .ok p :=
  decode_decls (fun d hd => decode_encodeDecl htrue d (h d hd)) _ (Nat.le_refl _)

/-- `val rec f = fn {a, ...} if a => 1 | {} => 2` and `fun g () : int = #"c"`, on two lines. -/
def guardedThenAnnotated : Program :=
  let p : Pos := ⟨1, 5⟩
  let q : Pos := ⟨2, 1⟩
  [.val p true (.var p "f") (.fn p [
      ⟨p, .record p [("a", .var p "a")] true, some (.var p "a"), .literal p ⟨.int, "1"⟩⟩,
      ⟨p, .record p [] false, none, .literal p ⟨.int, "2"⟩⟩]),
    .functions q [⟨q, "g", [⟨q, [.tuple q []], some (.con q "int" []), .literal q ⟨.char, "c"⟩⟩]⟩]]

theorem decodeProgram_dump_guarded :
    ReadsTruth Node.isTrue ∧ (∀ d ∈ guardedThenAnnotated, d.Dumpable) ∧
      decodeProgram Node.isTrue (some (sequence (guardedThenAnnotated.map encodeDecl))) =
        .ok guardedThenAnnotated := by
  have h : ∀ d ∈ guardedThenAnnotated, d.Dumpable := by
    simp [guardedThenAnnotated, Decl.Dumpable, Expr.Dumpable, Rule.Dumpable, FunBinding.Dumpable,
      FunClause.Dumpable, Pattern.Dumpable, Pattern.FieldDumpable]
  exact ⟨readsTruth_isTrue, h, decodeProgram_dump readsTruth_isTrue h⟩

end Typecase.Dump
