import PacketC.Proofs.Lower.CallSteps

/-! Statements and declarations run in step. `statementStep` is one statement by itself, with the
statements in it lowered by a given function; lowering is the function that it leads back to. -/

namespace PacketC

/-- The second statement is the first one or is nested in it. -/
inductive Statement.Holds : Statement → Statement → Prop
  | self (s : Statement) : s.Holds s
  | child {s c t : Statement} (h : c ∈ s.children) (r : c.Holds t) : s.Holds t

/-- The expression that a variable or a constant starts from. -/
inductive DeclBody.StartsFrom : DeclBody → ExprId → Prop
  | initializer (ty : Ty) (e : ExprId) : StartsFrom (.var ty (some e)) e
  | value (ty : Ty) (e : ExprId) : StartsFrom (.const ty e) e

theorem DeclBody.StartsFrom.mentions {b : DeclBody} {e : ExprId} (h : b.StartsFrom e) :
    b.Mentions e := by
  cases h with
  | initializer ty e => exact .initializer ty e
  | value ty e => exact .value ty e

namespace Lower

variable {env env' : Env} {L : Licence} {r₁ r₂ : Recur} (hL : L.Suits env env')

/-! ### Assignments -/

section

variable {src : Expr} {id : ExprId}

include hL

variable (ht : env.TracesLike env')

theorem shortFieldValue_inStep (l : PacketField) (h : L.enters src.id) :
    Steps env env' L r₁ r₂ (shortFieldValue · l src) := by
  unfold Steps shortFieldValue
  split
  · exact .bind (.freshName .value32) fun _ _ =>
      .bind (addressedPath_inStep hL _) fun _ _ => .pure _
  · exact .bind (.enter h _) fun _ _ => .pure _

include ht in
theorem storeScalar_inStep (l : PacketField) (h : L.enters src.id) :
    Steps env env' L r₁ r₂ (storeScalar · l src) :=
  .bind (shortFieldValue_inStep hL l h) fun _ _ => .traces ht fun _ => .pure _

theorem memberSource_inStep (l : PacketField) {m : Member} (hsrc : env.At id src)
    (hm : src.node = .member m) (h : L.enters src.id) :
    Steps env env' L r₁ r₂ (memberSource · l src m) := by
  refine .bind (.nameOf .value _) fun buffer _ => ?_
  split
  · rename_i ref href
    refine .packetField hL (fun wf => ?_) fun s _ =>
      .bind (.hoist (ended_packetBuffer ..) (.inr (isDeclaring_packetBuffer ..))) fun _ _ => .pure _
    exact wf.fieldMembers src (Program.mem_of_expr hsrc) m ref hm href
  · refine .expr hL (fun wf => wf.exists_part hsrc (hm ▸ .base m)) fun base hb => ?_
    split
    · rename_i path _
      refine .ask (hL.same (f := fun e =>
        Target.fieldId ((e.program.typeName? base.ty).getD path.name) m.member) fun wf => ?_)
        (.bind (.hoist (.append _ (.append _ rfl)) (.inr (by simp +decide))) fun _ _ => .pure _)
      rw [wf.program.typeName?_eq (wf.ty hb)]
    · exact .bind (.enter h _) fun _ _ => .pure _

theorem plainSource_inStep (l : PacketField) (h : L.enters src.id) :
    Steps env env' L r₁ r₂ (plainSource · l src) := by
  unfold Steps plainSource
  split
  · exact .bind (addressedPath_inStep hL _) fun _ _ => .pure _
  · exact .bind (.nameOf .value _) fun _ _ =>
      .bind (.hoist (.append _ rfl) (.inr (by simp +decide))) fun _ _ => .pure _
  · exact .bind (.enter h _) fun _ _ => .pure _

theorem byteSource_inStep (l : PacketField) (hsrc : env.At id src)
    (h : L.enters src.id) : Steps env env' L r₁ r₂ (byteSource · l src) := by
  unfold Steps byteSource
  split
  · rename_i m hm
    split
    · exact memberSource_inStep hL l hsrc (node_of_member? hm) h
    · exact plainSource_inStep hL l h
  · exact plainSource_inStep hL l h

include ht

theorem storeBytes_inStep (l : PacketField) (hsrc : env.At id src)
    (h : L.enters src.id) : Steps env env' L r₁ r₂ (storeBytes · l src) :=
  .bind (byteSource_inStep hL l hsrc h) fun _ _ => .traces ht fun _ => .pure _

theorem copyHeader_inStep {left right : ExprId} {dst : Expr}
    (hdst : env.At left dst) (hsrc : env.At right src)
    (hd : L.enters dst.id) (hs : L.enters src.id) :
    Steps env env' L r₁ r₂ (copyHeader · dst src) := by
  refine .bind (headerSlot_inStep hL ?_ hd _) fun _ _ => .bind (headerSlot_inStep hL ?_ hs _) ?_
  · exact fun wf i hi => wf.exists_header hdst hi
  · exact fun wf i hi => wf.exists_header hsrc hi
  · exact fun _ _ => .traces ht fun _ => .pure _

omit hL in
theorem storeVariable_inStep {dst : Expr} (hty : SameText env env' dst.ty) (hd : L.enters dst.id)
    (hs : L.enters src.id) : Steps env env' L r₁ r₂ (storeVariable · dst src) := by
  refine .bind (.enter hd _) fun d _ => .bind (.enter hs _) fun s _ => ?_
  split
  · refine .bind (.typeText hty) fun type _ => ?_
    split
    · exact .traces ht fun _ => .pure _
    · exact .bind (.freshName .var) fun _ _ => .pure _
  · exact .traces ht fun _ => .pure _

theorem assign_inStep {left right : ExprId} (hl : L.Allows env env' left)
    (hr : L.Allows env env' right) : Steps env env' L r₁ r₂ (assign · left right) := by
  refine .expr hL hl.there fun dst hdst => .expr hL hr.there fun src hsrc => ?_
  have hd := hL.enters_id hdst hl.enters
  have hs := hL.enters_id hsrc hr.enters
  split
  · rename_i ref href
    refine .packetField hL (fun wf => wf.resolves hdst href) fun l _ => ?_
    split
    · exact storeScalar_inStep hL ht l hs
    · exact storeBytes_inStep hL ht l hsrc hs
  · refine .ask (hL.same (f := fun e => isHeaderTy e.program dst.ty) fun wf =>
      wf.program.isHeaderTy_eq (wf.ty hdst)) ?_
    split
    · exact copyHeader_inStep hL ht hdst hsrc hd hs
    · split
      · exact storeVariable_inStep ht (hL.sameText fun wf => wf.ty hdst) hd hs
      · exact .bind (.enter hl.enters _) fun _ _ => .bind (.enter hr.enters _) fun _ _ => .pure _

/-! ### Declarations -/

omit ht

theorem variableDecl_inStep {ty : Ty} (hty : L.Strict env env' → env.program.InRange ty)
    (name : String) {initializer : Option ExprId} (h : ∀ e, initializer = some e → L.enters e) :
    Steps env env' L r₁ r₂ (variableDecl · ty name initializer) := by
  refine .ask (hL.same (f := fun e => isHeaderTy e.program ty) fun wf =>
    wf.program.isHeaderTy_eq (hty wf)) ?_
  split
  · exact .pure _
  · split
    · dsimp only
      split
      · exact .bind (.enter (h _ rfl) _) fun _ _ => .pure _
      · exact .bind (.pure _) fun _ _ => .pure _
    · refine .bind (.declaredText _ (hL.sameText hty) _) fun declared _ => ?_
      split
      · exact .pure _
      · refine .bind (.enter (h _ rfl) _) fun value _ => ?_
        split <;> exact .pure _

theorem instanceDecl_inStep {ty : Ty} (name : String) (hty : env.program.HoldsTy ty) :
    Steps env env' L r₁ r₂ fun _ => instanceDecl ty name := by
  unfold instanceDecl
  dsimp only
  split
  · rename_i id
    simp only [map_eq_pure_bind, bind_assoc, pure_bind]
    refine .look hL (fun wf => wf.exists_typeDecl hty (.external id)) (·.typeDecl) fun _ _ => ?_
    exact .bind (.hoist (.append _ rfl) (.inr (by simp +decide))) fun _ _ => .pure _
  · exact .bind (.typeTextIn _ (hL.sameText fun wf => wf.types _ hty)) fun _ _ =>
      .bind (.hoist (.append _ rfl) (.inr (by simp +decide))) fun _ _ => .pure _

theorem constDecl_inStep {ty : Ty} (hty : SameText env env' ty) (name : String) {value : ExprId}
    (h : L.Allows env env' value) : Steps env env' L r₁ r₂ (constDecl · ty name value) := by
  refine .bind (.declaredText _ hty _) fun declared _ => .expr hL h.there fun e _ => ?_
  dsimp only
  split
  · exact .bind (.pure _) fun _ _ => .pure _
  · exact .bind (.enter h.enters _) fun _ _ => .pure _

theorem declaration_inStep {id : DeclId} (rename : Option String)
    (hdecl : L.Strict env env' → ∃ d, env.program.decl id = .ok d)
    (h : ∀ d e, env.program.decl id = .ok d → d.body.StartsFrom e → L.enters e) :
    Steps env env' L r₁ r₂ (declaration · id rename) := by
  refine .look hL hdecl (·.decl) fun d hd => ?_
  have hmem : d ∈ env.program.decls := Program.mem_of_lookup hd
  have hty : ∀ ty, d.body.HoldsTy ty → L.Strict env env' → env.program.InRange ty :=
    fun ty hty wf => wf.types ty (.decl hmem hty)
  dsimp only
  split <;> rename_i hbody <;> rw [hbody] at hty
  · rename_i ty initializer
    refine variableDecl_inStep hL (hty ty (.var ..)) _ ?_
    rintro e rfl
    exact h d e hd (hbody ▸ .initializer ty e)
  · exact instanceDecl_inStep hL _ (.decl hmem (hbody ▸ .inst ..))
  · exact .bind (.typeText (hL.sameText (hty _ (.param ..)))) fun _ _ => .pure _
  · rename_i ty value
    refine constDecl_inStep hL (hL.sameText (hty ty (.const ..))) _
      ⟨h d value hd (hbody ▸ .value ty value), fun wf => ?_⟩
    exact Program.exists_lookup (wf.initializers d hmem value (hbody ▸ .value ty value))
  · exact .bind (.report ..) fun _ _ => .pure _
  · exact .pure _
  · exact .pure _

/-! ### Calls as statements -/

theorem sendHeader_inStep (hcall : L.AdmitsCalls env env') {args : List ExprId}
    (h : ∀ a ∈ args, L.Allows env env' a) : Steps env env' L r₁ r₂ (sendHeader · args) := by
  unfold Steps sendHeader
  split
  · exact .throw (hcall.fails _ trivial)
  · rename_i arg rest
    have harg := h arg (.head rest)
    refine .expr hL harg.there fun e he => ?_
    refine .bind (headerSlot_inStep hL ?_ (hL.enters_id he harg.enters) _) fun _ _ => .pure _
    exact fun wf i hi => wf.exists_header he hi

theorem validityTrace_inStep (ht : env.TracesLike env') {method : Expr}
    (hm : env.At id method) :
    Steps env env' L r₁ r₂ fun _ => validityTrace method := by
  refine .traces ht fun b => ?_
  split
  · rename_i m hmember
    split
    · exact .pure _
    · refine .expr hL (fun wf => wf.exists_part hm (node_of_member? hmember ▸ .base m)) ?_
      intro receiver hr
      dsimp only
      split
      · rename_i i hi
        simp only [map_eq_pure_bind, bind_assoc, pure_bind]
        exact .header hL (fun wf => wf.exists_header hr hi) fun _ => .pure _
      · exact .bind (.pure _) fun _ _ => .pure _
  · exact .pure _

omit hL in
theorem callLine_inStep (h : L.enters id) (e : Expr) :
    Steps env env' L r₁ r₂ (callLine · id e) := by
  refine .bind (.enter h _) fun text _ => ?_
  split
  · exact .bind (.warn ..) fun _ _ => .pure _
  · exact .pure _

theorem runCall_inStep (hcall : L.AdmitsCalls env env')
    (hid : L.Strict env env' → ∃ e, env.At id e)
    (h : ∀ i, env.program.Reaches id i → L.enters i) : Steps env env' L r₁ r₂ (runCall · id) := by
  refine .expr hL hid fun e he => ?_
  split
  · rename_i call hnode
    have hc : L.AllowsCall env env' call := Licence.allowsCall_node he hnode fun a ha =>
      h a (.part ⟨e, he, hnode ▸ .arg ha⟩ (.refl a))
    refine .expr hL (fun wf => wf.exists_part he (hnode ▸ .method call)) fun method hm => ?_
    split
    · exact digestStatement_inStep hL hcall hc _
    · refine .config hL fun _ => .ask (hL.same (f := fun e =>
        sendsHeader e.program env.config.packetOutType method) fun wf =>
          wf.program.sendsHeader_eq wf.toWellFormed hm _) ?_
      split
      · exact sendHeader_inStep hL hcall hc.args
      · exact .bind (validityTrace_inStep hL hcall.traces hm) fun _ _ =>
          .bind (callLine_inStep (h id (.refl id)) e) fun _ _ => .pure _
  · exact .throw (hcall.fails _ trivial)

end

/-! ### One statement at a time -/

/-- A body that may be missing. -/
def bodyBy (inner : Statement → LowerM String) : Option Statement → LowerM String
  | none => return ";"
  | some s => enclosed (inner s)

/-- One case of a switch. -/
def armBy (recur : Recur) (inner : Statement → LowerM String) (a : SwitchArm Statement) :
    LowerM Arm := do
  let label ← caseLabel recur a.label
  let body ← bodyBy inner a.body
  return ⟨label, body⟩

/-- One statement, with the statements in it lowered by `inner`. -/
def statementStep (recur : Recur) (inner : Statement → LowerM String) :
    Statement → LowerM String
  | .assign left right => assign recur left right
  | .block components annotations => do
    let lock ← if annotations.contains Statement.atomicMark then controlLock else pure none
    let parts ← components.mapM fun s => enclosed (inner s)
    return blockText (← config) lock parts
  | .cond condition ifTrue ifFalse => do
    let t ← bodyBy inner ifTrue
    let f ← bodyBy inner ifFalse
    let c ← recur condition .value
    return condText (← config).indentation (if Text.isBlank c then "true" else c) t f
  | .call e => runCall recur e
  | .switch selector cases => do
    let s ← recur selector .value
    let arms ← cases.mapM (armBy recur inner)
    return switchText (← config).indentation s arms
  | .decl id => declaration recur id none
  | .empty => return ";"

theorem nested_eq (recur : Recur) (s : Option Statement) :
    nested recur s = bodyBy (statement recur) s := by
  cases s with
  | none => rw [nested, bodyBy]
  | some s => rw [nested, bodyBy]

theorem blockParts_eq (recur : Recur) (l : List Statement) :
    blockParts recur l = l.mapM fun s => enclosed (statement recur s) := by
  induction l with
  | nil => rw [blockParts, List.mapM_nil]
  | cons s rest ih => rw [blockParts, List.mapM_cons, ih]

theorem switchArms_eq (recur : Recur) (l : List (SwitchArm Statement)) :
    switchArms recur l = l.mapM (armBy recur (statement recur)) := by
  induction l with
  | nil => rw [switchArms, List.mapM_nil]
  | cons a rest ih =>
    obtain ⟨label, body⟩ := a
    rw [switchArms, List.mapM_cons, ih, nested_eq]
    simp only [armBy, bind_assoc, pure_bind]

/-- Lowering a statement leads back to lowering the statements in it. -/
theorem statement_eq_step (recur : Recur) (s : Statement) :
    statement recur s = statementStep recur (statement recur) s := by
  cases s with
  | block components annotations => rw [statement, statementStep, blockParts_eq]
  | cond condition ifTrue ifFalse => rw [statement, statementStep, nested_eq, nested_eq]
  | switch selector cases => rw [statement, statementStep, switchArms_eq]
  | _ => rw [statement, statementStep]

theorem sizeOf_lt_of_mem_children {s c : Statement} (h : c ∈ s.children) : sizeOf c < sizeOf s := by
  cases s with
  | block components annotations =>
    have hlt : sizeOf c < sizeOf components := List.sizeOf_lt_of_mem h
    simp only [Statement.block.sizeOf_spec]
    omega
  | cond condition ifTrue ifFalse =>
    simp only [Statement.children, List.mem_append, Option.mem_toList] at h
    rcases h with rfl | rfl <;>
      · simp only [Statement.cond.sizeOf_spec, Option.some.sizeOf_spec]
        omega
  | switch selector cases =>
    simp only [Statement.children, List.mem_filterMap] at h
    obtain ⟨a, ha, hb⟩ := h
    have hlt := List.sizeOf_lt_of_mem ha
    obtain ⟨label, body⟩ := a
    subst hb
    simp only [SwitchArm.mk.sizeOf_spec, Option.some.sizeOf_spec] at hlt
    simp only [Statement.switch.sizeOf_spec]
    omega
  | _ => cases h

/-! ### Statements in step -/

include hL in
theorem controlLock_inStep (hframes : L.frames) : Steps env env' L r₁ r₂ fun _ => controlLock := by
  have hsame := hL.same (f := fun e => e.block.bind fun id => e.program.blocks[id.index]?)
    fun wf => wf.block
  refine .known (a := env) (b := env') rfl rfl ?_
  rw [hsame]
  split
  · exact .pure _
  · exact .bind (.note fun _ => hframes) fun _ _ => .pure _

theorem enclosed_inStep (hframes : L.frames) {x y : LowerM String}
    (h : InStep env env' L r₁ r₂ x y) : InStep env env' L r₁ r₂ (enclosed x) (enclosed y) :=
  .bind (.framed hframes h) fun _ _ => .pure _

theorem bodyBy_inStep (hframes : L.frames) {i₁ i₂ : Statement → LowerM String}
    {s : Option Statement}
    (h : ∀ t, s = some t → InStep env env' L r₁ r₂ (i₁ t) (i₂ t)) :
    InStep env env' L r₁ r₂ (bodyBy i₁ s) (bodyBy i₂ s) := by
  cases s with
  | none => exact .pure _
  | some t => exact enclosed_inStep hframes (h t rfl)

include hL in
theorem caseLabel_inStep {id : ExprId} (h : L.Allows env env' id) :
    Steps env env' L r₁ r₂ (caseLabel · id) := by
  refine .expr hL h.there fun e _ => ?_
  split
  · exact .pure _
  · refine .bind (.enter h.enters _) fun text _ => ?_
    split
    · exact .bind (.report ..) fun _ _ => .pure _
    · exact .pure _

/-- The expressions and declarations that a statement itself names are there, and may be entered;
a call may do what calls do, and what is nested has frames. -/
structure Admits (L : Licence) (env env' : Env) (s : Statement) : Prop where
  exprs : L.Strict env env' → ∀ e ∈ s.expressions, ∃ x, env.At e x
  decls : L.Strict env env' → ∀ id, s = .decl id → ∃ d, env.program.decl id = .ok d
  enters : ∀ e ∈ s.expressions, ∀ i, env.program.Reaches e i → L.enters i
  starts : ∀ id d e, s = .decl id → env.program.decl id = .ok d → d.body.StartsFrom e → L.enters e
  calls : ∀ id, s = .call id → L.AdmitsCalls env env'
  frames : L.frames
  traces : env.TracesLike env'

theorem Admits.allows {s : Statement} (h : Admits L env env' s) {e : ExprId}
    (he : e ∈ s.expressions) : L.Allows env env' e :=
  ⟨h.enters e he e (.refl e), fun wf => h.exprs wf e he⟩

include hL

theorem statementStep_inStep {s : Statement} (h : Admits L env env' s)
    {i₁ i₂ : Statement → LowerM String}
    (hi : ∀ c ∈ s.children, InStep env env' L r₁ r₂ (i₁ c) (i₂ c)) :
    InStep env env' L r₁ r₂ (statementStep r₁ i₁ s) (statementStep r₂ i₂ s) := by
  cases s with
  | assign left right =>
    exact assign_inStep hL h.traces (h.allows (.head _)) (h.allows (.tail _ (.head _)))
  | block components annotations =>
    have hparts : ∀ lock, InStep env env' L r₁ r₂
        (do let parts ← components.mapM fun s => enclosed (i₁ s)
            return blockText (← config) lock parts)
        (do let parts ← components.mapM fun s => enclosed (i₂ s)
            return blockText (← config) lock parts) := fun lock =>
      .bind (.mapM fun c hc => enclosed_inStep h.frames (hi c hc)) fun _ _ =>
        .config hL fun _ => .pure _
    unfold statementStep
    dsimp only
    split
    · exact .bind (controlLock_inStep hL h.frames) fun lock _ => hparts lock
    · exact .bind (.pure _) fun lock _ => hparts lock
  | cond condition ifTrue ifFalse =>
    simp only [Statement.children, List.mem_append, Option.mem_toList] at hi
    refine .bind (bodyBy_inStep h.frames fun t ht => hi t (.inl ht)) fun _ _ => ?_
    refine .bind (bodyBy_inStep h.frames fun t ht => hi t (.inr ht)) fun _ _ => ?_
    exact .bind (.enter (h.allows (.head _)).enters _) fun _ _ => .config hL fun _ => .pure _
  | call e =>
    exact runCall_inStep hL (h.calls e rfl) (fun wf => h.exprs wf e (.head _))
      (h.enters e (.head _))
  | switch selector cases =>
    refine .bind (.enter (h.allows (.head _)).enters _) fun _ _ => ?_
    refine .bind (.mapM fun a ha => ?_) fun _ _ => .config hL fun _ => .pure _
    have hlabel : a.label ∈ (Statement.switch selector cases).expressions :=
      .tail _ (List.mem_map_of_mem ha)
    refine .bind (caseLabel_inStep hL (h.allows hlabel)) fun _ _ => ?_
    refine .bind (bodyBy_inStep h.frames fun t ht => hi t ?_) fun _ _ => .pure _
    exact List.mem_filterMap.2 ⟨a, ha, ht⟩
  | decl id =>
    exact declaration_inStep hL none (fun wf => h.decls wf id rfl) fun d e hd he =>
      h.starts id d e rfl hd he
  | empty => exact .pure _

/-- What holds of each statement in it holds of the whole statement. -/
theorem statement_inStep {s : Statement} (h : ∀ t, s.Holds t → Admits L env env' t) :
    InStep env env' L r₁ r₂ (statement r₁ s) (statement r₂ s) := by
  rw [statement_eq_step r₁, statement_eq_step r₂]
  refine statementStep_inStep hL (h s (.self s)) fun c hc => ?_
  exact statement_inStep fun t ht => h t (.child hc ht)
termination_by sizeOf s
decreasing_by exact sizeOf_lt_of_mem_children hc

/-! ### Any program -/

omit hL

/-- The licence to enter any expression and to raise any error, whatever the program. -/
def Licence.any : Licence := ⟨fun _ => True, fun _ => True, False, fun _ => True, True, True⟩

theorem Licence.any_suits (env : Env) : any.Suits env env :=
  .inr ⟨rfl, fun _ => trivial, fun _ => trivial⟩

theorem Licence.any_admitsCalls (env : Env) : any.AdmitsCalls env env :=
  ⟨fun _ _ => trivial, trivial, rfl⟩

theorem Licence.any_allows (env : Env) (id : ExprId) : any.Allows env env id :=
  ⟨trivial, fun h => h.strict.elim⟩

theorem nodeText_any {id : ExprId} {e : Expr} (he : env.At id e) (mode : Mode) :
    InStep env env .any r₁ r₂ (nodeText r₁ e mode) (nodeText r₂ e mode) :=
  nodeText_inStep (Licence.any_suits _) he (fun _ _ => Licence.any_admitsCalls _)
    (fun _ _ => trivial) trivial mode

theorem statement_any (s : Statement) :
    InStep env env .any r₁ r₂ (statement r₁ s) (statement r₂ s) :=
  statement_inStep (Licence.any_suits _) fun _ _ =>
    ⟨fun hs => hs.strict.elim, fun hs => hs.strict.elim, fun _ _ _ _ => trivial,
      fun _ _ _ _ _ _ => trivial, fun _ _ => Licence.any_admitsCalls _, trivial, rfl⟩

/-- What each node keeps, if the expressions in it do, is kept by every expression. -/
theorem expr_keeps {R : State → State → Prop} (hrefl : ∀ s, R s s)
    (hnode : ∀ (recur : Recur) {id e}, (∀ id mode s, R s (recur id mode env s).2) →
      env.At id e → ∀ mode s, R s (nodeText recur e mode env s).2)
    (id : ExprId) (mode : Mode) (s : State) : R s (expr id mode env s).2 := by
  have hwithin : ∀ depth id mode s, R s (exprWithin depth id mode env s).2 := by
    intro depth
    induction depth with
    | zero => exact fun _ _ s => hrefl s
    | succ depth ih =>
      intro id mode s
      rw [exprWithin]
      cases he : env.program.expr id with
      | error e =>
        rw [run_bind, look_of_error he]
        exact hrefl s
      | ok e =>
        rw [bind_of_pure (look_of_ok he)]
        exact hnode _ ih he mode s
  exact hwithin _ id mode s

end Lower

end PacketC
