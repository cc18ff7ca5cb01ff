import PacketC.Proofs.Lower.Reachable
import PacketC.Proofs.Lower.Reports
import PacketC.Proofs.Scope.Vocabulary

/-! What is written for an expression can be seen. Where the names of the program and the aliases
are not blank, every form of expression but three is written with a mark or a name, or an error is
reported: a default and a transition without cases have no text, and a conversion of an unsigned
number to a type that is not narrower has the text of its operand. -/

namespace PacketC

open Text Code

/-- The names that texts of expressions may consist of. -/
structure TypeScope.Visible (s : TypeScope) : Prop where
  types : ∀ t ∈ s.program.typeDecls, isBlank t.name = false
  members : ∀ t ∈ s.program.typeDecls, ∀ m ∈ t.members, isBlank m.cName = false
  paths : ∀ e ∈ s.program.exprs, ∀ path, e.node = .path path → isBlank path.name = false
  aliases : ∀ name text, s.aliases.find? name = some text → isBlank text = false

/-- A conversion of an unsigned number to an unsigned type that is not narrower. -/
def Ty.Widens (src dest : Ty) : Prop :=
  ∃ n m : UInt32, src = .bits n false ∧ dest = .bits m false ∧ n ≤ m

/-- Behind any number of widening conversions stands a default or a transition without cases. -/
inductive Program.Silent (p : Program) : ExprId → Prop
  | default {id : ExprId} {e : Expr} (he : p.At id e) (hnode : e.node = .default) :
      Silent p id
  | select {id : ExprId} {e : Expr} {keys : List ExprId} (he : p.At id e)
      (hnode : e.node = .select keys []) : Silent p id
  | cast {id operand : ExprId} {e inner : Expr} {dest : Ty} (he : p.At id e)
      (hnode : e.node = .cast dest operand) (hinner : p.At operand inner)
      (hwidens : inner.ty.Widens dest) (h : Silent p operand) : Silent p id

/-! ### Texts that can be seen -/

theorem Text.isBlank_left {a : String} (h : isBlank a = false) (b : String) :
    isBlank (a ++ b) = false := by rw [isBlank_append, h, Bool.false_and]

theorem Text.isBlank_right (a : String) {b : String} (h : isBlank b = false) :
    isBlank (a ++ b) = false := by rw [isBlank_append, h, Bool.and_false]

variable {x : String}

theorem Text.isBlank_intercalate (sep : String) (h : isBlank x = false) (xs : List String) :
    isBlank (String.intercalate sep (x :: xs)) = false := by
  cases xs with
  | nil => rwa [String.intercalate_singleton]
  | cons y xs =>
    rw [String.intercalate_cons_cons]
    exact isBlank_left (isBlank_left h _) _

/-- What is blank has no words. -/
theorem Code.IsWord.isBlank_eq_false (h : IsWord x) : isBlank x = false := by
  refine Bool.eq_false_iff.2 fun hblank => ?_
  have hwords := words_of_isBlank hblank
  rw [words, wordsIn_word (by simp [h.nonempty]) h.chars] at hwords
  cases hwords

theorem Text.isBlank_decimal (n : Int) : isBlank (Literal.decimal n) = false := by
  cases n with
  | ofNat n => exact (numeral_decimal n).toIsWord.isBlank_eq_false
  | negSucc n => exact isBlank_left rfl _

theorem Layout.ended_closeBlock (l : Layout) : Ended l.closeBlock.finish := by
  show Ended (unlines (l.lines ++ [_]))
  by_cases h : l.lines = []
  · rw [h, List.nil_append, unlines_singleton]
    exact .append _ rfl
  · rw [unlines_append h (List.cons_ne_nil _ _), unlines_singleton]
    exact .append _ (.append _ rfl)

theorem NameSupply.Derived.isBlank_eq_false {hint id : String} (h : Derived hint id x) :
    isBlank x = false := by
  have hjoined : isBlank (joined hint id) = false :=
    isBlank_left (isBlank_right _ rfl) _
  rcases h with rfl | ⟨n, rfl⟩
  · exact hjoined
  · exact isBlank_left (isBlank_right _ rfl) _

theorem TypeScope.Visible.typeTexts {s : TypeScope} (h : s.Visible) :
    TypeTexts s (isBlank · = false) where
  aliases := h.aliases
  void := rfl
  bool := rfl
  bits form width signed := by
    dsimp only [Ty.bitsText]
    split
    · exact isBlank_right _ rfl
    · split
      · exact isBlank_right _ rfl
      · exact isBlank_right _ rfl
  varbits bytes := isBlank_right _ rfl
  unknown ty reason := isBlank_right _ rfl
  name := h.types
  target t ht c hc := isBlank_left rfl _
  external t ht := isBlank_right _ rfl
  struct t ht := isBlank_left rfl _
  specialized t ht text htext := isBlank_right _ htext

namespace Lower

variable {α β : Type} {env : Env}

/-- Whatever text the action returns can be seen. -/
abbrev Shows (env : Env) (x : LowerM String) : Prop :=
  Results env (fun text => isBlank text = false) x

/-- Where the supply of names is in order, the text that the action returns can be seen, or an error
is recorded. -/
def Outspoken (env : Env) (x : LowerM String) : Prop :=
  ∀ s text t, x env s = (.ok text, t) → s.memory.names.Sound → isBlank text = true →
    s.memory.Gains .error t.memory

/-- The text ends in a mark. -/
theorem Results.mark (a : String) {b : String} (h : isBlank b = false) :
    Shows env (Pure.pure (a ++ b)) := pure (isBlank_right a h)

namespace Outspoken

theorem of_shows {x : LowerM String} (h : Shows env x) : Outspoken env x := by
  intro s text t hrun _ hblank
  rw [h text ⟨s, t, hrun⟩] at hblank
  cases hblank

theorem of_env {x y : LowerM String} (h : x env = y env) (hy : Outspoken env y) :
    Outspoken env x := by
  intro s
  rw [h]
  exact hy s

theorem look {g : Program → Except ProgramError α} {f : α → LowerM String}
    (hf : ∀ a, g env.program = .ok a → Outspoken env (f a)) :
    Outspoken env (Lower.look g >>= f) := by
  rcases look_cases g f with ⟨a, ha, h⟩ | ⟨e, h⟩
  · exact of_env h (hf a ha)
  · exact of_env h (of_shows .throw)

theorem ask (view : Program → α) {f : α → LowerM String}
    (hf : Outspoken env (f (view env.program))) : Outspoken env (Lower.ask view >>= f) :=
  of_env (bind_of_pure rfl) hf

theorem unsupported (category : Category) (message : String) :
    Outspoken env (Lower.unsupported category message) := by
  intro s text t hrun _ _
  cases hrun
  exact ⟨_, rfl, _, .head _, rfl⟩

/-- A part is lowered first. It loses no diagnostic, and it leaves the supply of names in order. -/
theorem enter (id : ExprId) (mode : Mode) {f : String → LowerM String}
    (hf : ∀ text, Outspoken env (f text)) : Outspoken env (expr id mode >>= f) := by
  intro s text u hrun hs hblank
  obtain ⟨inner, t, ht, hrun⟩ := exists_of_bind hrun
  have hkeeps : s.memory.Keeps (expr id mode env s).2.memory :=
    (expr_remembers id mode s).diagnostics
  have hsound : (expr id mode env s).2.memory.names.Sound :=
    expr_upkeep (upkeep_sound env.program _) id mode s hs
  rw [ht] at hkeeps hsound
  exact hkeeps.and_gains (hf inner t text u hrun hsound hblank)

/-- The name of an expression is put together from a hint and from the expression. -/
theorem named (hint : String) (id : ExprId) {f : String → LowerM String}
    (hf : ∀ name, isBlank name = false → Outspoken env (f name)) :
    Outspoken env (nameOf hint id >>= f) := by
  intro s text u hrun hs hblank
  obtain ⟨name, t, hname, hrun⟩ := exists_of_bind hrun
  have hkeeps : s.memory.Keeps t.memory := by cases hname; exact .refl _
  have hsound : t.memory.names.Sound := by cases hname; exact hs.named hint id.text
  have hlookup : t.memory.names.memo.lookup (hint, id.text) = some name := by
    cases hname
    exact s.memory.names.lookup_named hint id.text
  have hvisible := (hsound.derived _ _ _ hlookup).isBlank_eq_false
  exact hkeeps.and_gains (hf name hvisible t text u hrun hsound hblank)

end Outspoken

/-! ### Constants, fields and paths -/

theorem constant_outspoken (e : Expr) (value : Int) (base : UInt32) :
    Outspoken env (constant e value base) := by
  unfold constant
  split
  · split
    · exact .named _ _ fun name hname => .of_shows (.bind fun _ _ => .pure hname)
    · exact .of_shows (.bind fun _ _ => .pure (isBlank_left (isBlank_right _ rfl) _))
  · exact .of_shows (.pure (isBlank_decimal value))

theorem typeText_shows (hv : env.toTypeScope.Visible) (ty : Ty) : Shows env (typeText ty) := by
  rintro text ⟨s, t, hrun⟩
  cases hrun
  exact hv.typeTexts.render .parameter ty

theorem fieldText_shows (ref : FieldRef) (mode : Mode) : Shows env (fieldText ref mode) := by
  refine .bind fun l _ => ?_
  split
  · exact .pure (isBlank_left (isBlank_right _ rfl) _)
  · split
    · refine .bind fun name hname => .bind fun _ _ => .pure ?_
      obtain ⟨s, t, hname⟩ := hname
      cases hname
      exact isBlank_left (isBlank_right _ rfl) _
    · exact .mark _ rfl

theorem pathText_shows {path : Path} (h : isBlank path.name = false) (mode : Mode) :
    Shows env (pathText path mode) := by
  unfold pathText
  split
  · exact .pure h
  · refine .bind fun b _ => ?_
    split
    · exact .pure (isBlank_right _ h)
    · split
      · exact .pure (isBlank_right _ h)
      · exact .pure h

/-- The members of enumerations are among the names. -/
theorem isBlank_of_enumMemberName (hv : env.toTypeScope.Visible) {ty : Ty} {name cName : String}
    (h : enumMemberName env.program ty name = .ok (some cName)) : isBlank cName = false := by
  have hmember : ∀ id, (do return ((← env.program.typeDecl id).member? name).map EnumMember.cName :
      Except ProgramError (Option String)) = .ok (some cName) → isBlank cName = false := by
    intro id h
    obtain ⟨t, ht, h⟩ := Program.bind_eq_ok_iff.1 h
    obtain ⟨m, hm, rfl⟩ := Option.map_eq_some_iff.1 (Except.ok.inj h)
    exact hv.members t (Program.mem_of_lookup ht) m (List.mem_of_find?_eq_some hm)
  unfold enumMemberName at h
  split at h
  · exact hmember _ h
  · exact hmember _ h
  · cases h

theorem member_shows (hv : env.toTypeScope.Visible) (e : Expr) (m : Member) (mode : Mode) :
    Shows env (member expr e m mode) := by
  unfold member
  split
  · exact fieldText_shows _ mode
  · split
    · exact .bind fun _ _ => .pure (isBlank_left rfl _)
    · refine .bind fun base _ => .bind fun isHeader _ => ?_
      split
      · rintro _ ⟨s, t, h⟩
        cases h
        exact isBlank_right _ rfl
      · refine .bind fun name? hname => ?_
        split
        · exact .pure (isBlank_of_enumMemberName hv hname.of_look)
        · exact .bind fun _ _ => .pure (isBlank_left (isBlank_right _ rfl) _)

/-! ### Operators -/

theorem unaryText_shows (ty : Ty) (op : UnaryOp) (inner : String) :
    Shows env (unaryText ty op inner) := by
  unfold unaryText
  split
  · split
    · exact .bind fun _ _ => .mark _ rfl
    · exact .mark _ rfl
  · exact .bind fun _ _ => .mark _ rfl
  · exact .mark _ rfl

theorem unary_outspoken (e : Expr) (op : UnaryOp) (operand : ExprId) (mode : Mode) :
    Outspoken env (unary expr e op operand mode) := by
  unfold unary
  split
  · exact .unsupported _ _
  · exact .of_shows (.bind fun text _ => unaryText_shows e.ty op text)

theorem binaryText_outspoken (ty : Ty) (op : BinaryOp) (l r : String) :
    Outspoken env (binaryText ty op l r) := by
  unfold binaryText
  split
  · exact .of_shows (.mark _ rfl)
  · split
    · exact .of_shows (.bind fun _ _ => .mark _ rfl)
    · exact .of_shows (.bind fun _ _ => .mark _ rfl)
    · exact .of_shows (.mark _ rfl)
    · exact .of_shows (.mark _ rfl)
    · exact .of_shows (.bind fun _ _ => .mark _ rfl)
    · split
      · exact .of_shows (.bind fun _ _ => .mark _ rfl)
      · exact .unsupported _ _
    · exact .unsupported _ _

theorem binary_outspoken (e : Expr) (op : BinaryOp) (left right : ExprId) (mode : Mode) :
    Outspoken env (binary expr e op left right mode) := by
  refine .look fun l _ => .look fun r _ => ?_
  split
  · refine .enter _ _ fun a => .enter _ _ fun b => ?_
    split
    · exact .of_shows (.mark _ rfl)
    · exact binaryText_outspoken e.ty op a b
  · dsimp only
    split
    · exact .unsupported _ _
    · exact .enter _ _ fun a => .enter _ _ fun b => binaryText_outspoken e.ty op a b

variable {dest : Ty} {id : ExprId}

theorem castText_outspoken {src : Ty} (h : ¬src.Widens dest) (inner : String) :
    Outspoken env (castText src dest inner) := by
  unfold castText
  split
  · exact .of_shows (.mark _ rfl)
  · exact .of_shows (.mark _ rfl)
  · split
    · exact .of_shows (.bind fun _ _ => .mark _ rfl)
    · rename_i n m hlt
      exact (h ⟨n, m, rfl, rfl, UInt32.not_lt.1 hlt⟩).elim
  · exact .of_shows (.bind fun _ _ => .mark _ rfl)
  · exact .of_shows (.bind fun _ _ => .mark _ rfl)
  · split
    · exact .of_shows (.bind fun _ _ => .mark _ rfl)
    · exact .unsupported _ _
  · exact .unsupported _ _

/-- A widening conversion leaves the text as it is. -/
theorem castText_of_widens {src : Ty} (h : src.Widens dest) (inner : String) :
    castText src dest inner = pure inner := by
  obtain ⟨n, m, rfl, rfl, hle⟩ := h
  simp [castText, UInt32.not_lt.2 hle]

/-! ### Structs, lists and transitions -/

theorem structInit_shows (e : Expr) (components : List Component) (mode : Mode) :
    Shows env (structInit expr e components mode) :=
  .bind fun _ _ => .bind fun _ _ => .bind fun _ _ =>
    .pure (Layout.ended_closeBlock _).isBlank_eq_false

theorem branch_shows (keys : List (ExprId × String)) (arm : SelectArm) :
    Shows env (branch expr keys arm) :=
  .bind fun _ _ => .bind fun _ _ => .mark _ rfl

theorem transition_shows (id : ExprId) (keys : List ExprId) (arm : SelectArm)
    (arms : List SelectArm) : Shows env (transition expr id keys (arm :: arms)) := by
  refine .bind fun _ _ => .bind fun names _ => ?_
  rw [List.mapM_cons, bind_assoc]
  refine .bind fun first hfirst => ?_
  rw [bind_assoc]
  refine .bind fun rest _ => ?_
  rw [pure_bind]
  exact .pure (isBlank_intercalate _ (branch_shows _ arm first hfirst) rest)

theorem bufferText_shows (id : ExprId) (items : List ExprId) : Shows env (bufferText id items) := by
  refine .bind fun name _ => .bind fun first _ => ?_
  split
  · exact .bind fun _ _ => .bind fun _ _ => .mark _ rfl
  · exact .mark _ rfl

/-! ### Calls -/

theorem callExternal_shows (call : Call) (method : String) (receiver : Expr) :
    Shows env (callExternal expr call method receiver) :=
  .bind fun _ _ => .bind fun _ _ => .bind fun _ _ => .bind fun _ _ => .bind fun _ _ =>
    .bind fun _ _ => .bind fun _ _ => .bind fun _ _ => .bind fun _ _ => .mark _ rfl

theorem callMethod_outspoken (call : Call) (m : Member) (mode : Mode) :
    Outspoken env (callMethod expr call m mode) := by
  refine .look fun receiver _ => .ask _ ?_
  split
  · rename_i method _
    refine .of_shows (.bind fun _ _ => .pure ?_)
    cases method with
    | isValid => exact isBlank_right _ rfl
    | setValid => exact isBlank_right _ (isBlank_right _ rfl)
    | setInvalid => exact isBlank_right _ rfl
  · refine .ask _ ?_
    split
    · exact .of_shows (.mark _ rfl)
    · split
      · exact .ask _ (.unsupported _ _)
      · exact .of_shows (callExternal_shows call _ receiver)

theorem callFunction_shows (id : ExprId) (call : Call) (path : Path) :
    Shows env (callFunction expr id call path) := by
  unfold callFunction
  split
  · exact .bind fun _ _ => .bind fun _ _ => .bind fun _ _ => .bind fun _ _ => .bind fun _ _ =>
      .mark _ rfl
  · refine .bind fun signature? _ => ?_
    split
    · split
      · exact .bind fun _ _ => .mark _ rfl
      · exact .throw
    · exact .bind fun _ _ => .bind fun _ _ => .bind fun _ _ => .mark _ rfl

theorem callText_outspoken (id : ExprId) (call : Call) (mode : Mode) :
    Outspoken env (callText expr id call mode) := by
  refine .look fun method _ => ?_
  split
  · exact callMethod_outspoken call _ mode
  · exact .of_shows (callFunction_shows id call _)
  · exact .of_shows .throw

/-! ### Expressions -/

/-- An expression is silent by its form, or it widens another one, or it is outspoken. -/
theorem nodeText_outspoken (hv : env.toTypeScope.Visible) {e : Expr}
    (he : env.At id e) (hsilent : ¬env.program.Silent id)
    (hcast : ∀ dest operand, e.node = .cast dest operand → ∀ mode, Outspoken env (cast expr dest
      operand mode)) (mode : Mode) : Outspoken env (nodeText expr e mode) := by
  have hmem := Program.mem_of_expr he
  unfold nodeText
  split
  case h_1 value base _ => exact constant_outspoken e value base
  case h_2 value _ => cases value <;> exact .of_shows (.pure rfl)
  case h_3 value _ => exact .of_shows (.mark _ rfl)
  case h_4 hnode => exact (hsilent (.default he hnode)).elim
  case h_5 ty _ => exact .of_shows (typeText_shows hv ty)
  case h_6 path hnode => exact .of_shows (pathText_shows (hv.paths e hmem path hnode) mode)
  case h_7 m _ => exact .of_shows (member_shows hv e m mode)
  case h_8 op operand _ => exact unary_outspoken e op operand mode
  case h_9 op left right _ => exact binary_outspoken e op left right mode
  case h_10 => exact .of_shows (.bind fun _ _ => .bind fun _ _ => .bind fun _ _ => .mark _ rfl)
  case h_11 => exact .of_shows (.bind fun _ _ => .bind fun _ _ => .mark _ rfl)
  case h_12 =>
    exact .of_shows (.bind fun _ _ => .bind fun _ _ => .bind fun _ _ => .mark _ rfl)
  case h_13 dest operand hnode => exact hcast dest operand hnode mode
  case h_14 items _ => exact .of_shows (bufferText_shows e.id items)
  case h_15 components _ => exact .of_shows (structInit_shows e components mode)
  case h_16 keys arms hnode =>
    cases arms with
    | nil => exact (hsilent (.select he hnode)).elim
    | cons arm arms => exact .of_shows (transition_shows e.id keys arm arms)
  case h_17 => exact .unsupported _ _
  case h_18 => exact .unsupported _ _
  case h_19 c _ => exact callText_outspoken e.id c mode

theorem cast_outspoken {operand : ExprId}
    (hwidens : ∀ inner, env.At operand inner → inner.ty.Widens dest → ∀ mode,
      Outspoken env (expr operand mode)) (mode : Mode) :
    Outspoken env (cast expr dest operand mode) := by
  refine .look fun inner hinner => ?_
  by_cases h : inner.ty.Widens dest
  · simp only [castText_of_widens h, bind_pure]
    exact hwidens inner hinner h _
  · exact .enter _ _ fun text => castText_outspoken h text

/-- Induction over the parts: the operand of a widening conversion comes before the conversion. -/
theorem expr_outspoken (wf : env.program.WellFormed) (hv : env.toTypeScope.Visible)
    (hsilent : ¬env.program.Silent id) (mode : Mode) : Outspoken env (expr id mode) := by
  generalize hn : id.index = n
  induction n using Nat.strongRecOn generalizing id mode with
  | ind n ih =>
    cases he : env.program.expr id with
    | error err =>
      refine .of_env (y := exprWithin (env.program.exprs.size + 1) id mode) rfl ?_
      exact .look fun e h => nomatch he.symm.trans h
    | ok e =>
      refine .of_env (expr_eq_nodeText wf he mode) (nodeText_outspoken hv he hsilent ?_ mode)
      intro dest operand hnode
      refine cast_outspoken fun inner hinner hwidens mode => ?_
      have hpart : env.program.Part id operand := ⟨e, he, hnode ▸ .converted ..⟩
      refine ih operand.index (hn ▸ wf.part_lt hpart) ?_ mode rfl
      exact fun hop => hsilent (.cast he hnode hinner hwidens hop)

theorem returns_nodeText (wf : env.program.WellFormed) {e : Expr} (he : env.At id e)
    {mode : Mode} {text : String} (h : Returns env (expr id mode) text) :
    Returns env (nodeText expr e mode) text := by
  rwa [Returns, ← expr_eq_nodeText wf he mode]

/-- A silent expression has no text. -/
theorem text_of_silent (wf : env.program.WellFormed) (h : env.program.Silent id) {mode : Mode}
    {text : String} (hreturns : Returns env (expr id mode) text) : text = "" := by
  induction h generalizing mode with
  | default he hnode =>
    have hreturns := returns_nodeText wf he hreturns
    simp only [nodeText, hnode] at hreturns
    exact hreturns.of_pure.symm
  | select he hnode =>
    have hreturns := returns_nodeText wf he hreturns
    simp only [nodeText, hnode] at hreturns
    obtain ⟨_, _, hreturns⟩ := hreturns.of_bind
    obtain ⟨_, _, hreturns⟩ := hreturns.of_bind
    rw [List.mapM_nil, pure_bind] at hreturns
    exact hreturns.of_pure.symm
  | @cast id operand e inner dest he hnode hinner hwidens _ ih =>
    have hreturns := returns_nodeText wf he hreturns
    simp only [nodeText, hnode] at hreturns
    obtain ⟨inner', hlook, hreturns⟩ := hreturns.of_bind
    cases hinner.symm.trans hlook.of_look
    simp only [castText_of_widens hwidens, bind_pure] at hreturns
    exact ih hreturns

end Lower

/-- A blank text is one of an expression that is silent by its form, or an error is reported. -/
theorem Session.blank_expression_silent_or_reported {p : Program} (hp : p.validate = .ok ())
    {s s' : Session} (hs : s.Reachable) (hv : (s.scope p).Visible) (id : ExprId)
    (block : Option BlockId) (mode : Mode) {f : Fragment}
    (h : s.lowerExpression p id block mode = (.ok f, s')) :
    (Text.isBlank f.text = true → s.memory.Gains .error s'.memory ∨ p.Silent id) ∧
    (p.Silent id → f.text = "") := by
  obtain ⟨text, state, hrun, rfl, rfl⟩ := exists_of_run h
  have wf : p.WellFormed := .of_validate hp
  constructor
  · intro hblank
    refine Classical.or_iff_not_imp_right.2 fun hsilent => ?_
    exact Lower.expr_outspoken wf hv hsilent mode _ text state hrun hs.sound hblank
  · exact fun hsilent => Lower.text_of_silent wf hsilent ⟨_, _, hrun⟩

/-- A default that is widened, and the negation of a number that is too wide to be negated. -/
def speechless : Program where
  exprs := #[⟨⟨0⟩, .bits 8 false, .default⟩, ⟨⟨1⟩, .bits 16 false, .cast (.bits 16 false) ⟨0⟩⟩,
    .free 2 (.bits 40 false) "x", ⟨⟨3⟩, .bits 40 false, .unary .neg ⟨2⟩⟩]

theorem speechless_visible : ((Session.start .standard).scope speechless).Visible where
  types := by simp [Session.scope, speechless]
  members := by simp [Session.scope, speechless]
  paths := by
    simp only [Session.scope, speechless, List.mem_toArray, List.mem_cons, List.not_mem_nil,
      or_false]
    rintro e (rfl | rfl | rfl | rfl) path ⟨⟩
    rfl
  aliases _ _ h := nomatch h

/-- Neither has a text: the first is silent, and the second is reported. -/
theorem speechless_silent_and_reported : speechless.validate = .ok () ∧
    (∃ f s', (Session.start .standard).lowerExpression speechless ⟨1⟩ none .value = (.ok f, s') ∧
      speechless.Silent ⟨1⟩ ∧ f.text = "") ∧
    ∃ f s', (Session.start .standard).lowerExpression speechless ⟨3⟩ none .value = (.ok f, s') ∧
      Text.isBlank f.text = true ∧
      ((Session.start .standard).memory.Gains .error s'.memory ∨ speechless.Silent ⟨3⟩) := by
  refine ⟨rfl, ⟨_, _, rfl, ?_, ?_⟩, _, _, rfl, rfl, ?_⟩
  · exact .cast rfl rfl rfl ⟨8, 16, rfl, rfl, by decide⟩ (.default rfl rfl)
  · exact (Session.blank_expression_silent_or_reported rfl (.start _) speechless_visible ⟨1⟩ none
      .value rfl).2 (.cast rfl rfl rfl ⟨8, 16, rfl, rfl, by decide⟩ (.default rfl rfl))
  · exact (Session.blank_expression_silent_or_reported rfl (.start _) speechless_visible ⟨3⟩ none
      .value rfl).1 rfl

end PacketC
