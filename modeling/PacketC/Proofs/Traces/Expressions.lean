import PacketC.Proofs.Traces.Runs

/-! Expressions do not depend on whether traces are asked for. Only the payloads of external objects
and digests ask for them, and both have moved code out of the statement by then; the receiver of a
digest stands in its trace, so it must be written on one line. -/

namespace PacketC

/-- The expression is a digest that goes to the receiver. -/
def Program.SendsTo (p : Program) (id receiver : ExprId) : Prop :=
  ∃ e call method path fields, p.At id e ∧ e.node = .call call ∧
    p.At call.method method ∧ method.node = .path path ∧ path.name = "digest" ∧
    call.args = [receiver, fields]

/-- Neither a struct initializer nor a transition is reached from the receiver of a digest that the
expression reaches. -/
def Program.PlainDigests (p : Program) (id : ExprId) : Prop :=
  ∀ target receiver, p.Reaches id target → p.SendsTo target receiver → p.Plain receiver

theorem Program.PlainDigests.reached {p : Program} {id child : ExprId} (h : p.PlainDigests id)
    (hr : p.Reaches id child) : p.PlainDigests child :=
  fun target receiver ht => h target receiver (hr.trans ht)

namespace Lower

variable {env : Env} {on : Bool} {P : Prop}

/-- Lowering the expression comes to the same with traces and without. -/
def Indifferent (env : Env) (on : Bool) (id : ExprId) : Prop :=
  ∀ P mode, Alike P Eq env on (expr id mode)

/-- The licence to enter such expressions of a well-formed program. -/
def Licence.indifferent (env : Env) (on : Bool) : Licence :=
  ⟨Indifferent env on, fun _ => True, True, fun _ => True, False, True⟩

theorem Licence.indifferent_suits (wf : env.program.WellFormed) (on : Bool) :
    (indifferent env on).Suits env (env.tracing on) := .inl ⟨Env.resembles_tracing wf on, trivial⟩

/-- What does not ask for traces does not depend on them. -/
theorem Twins.step {α : Type} {x y : LowerM α}
    (hstep : InStep env (env.tracing on) (.indifferent env on) expr expr x y) :
    Twins (SameRun P) Eq env (env.tracing on) x y :=
  hstep.twins (fun h => h) (parallel_sameRun _ P) fun _ hid => hid P

/-! ### Payloads -/

theorem traceLine_bytes {target label : String} {f : Field} (htarget : Text.Unbroken target)
    (hf : Text.Unbroken f.name) (hlabel : Text.Unbroken label) :
    TraceLine (bytesTrace target f label) :=
  .arg (.arg (.arg (.arg ⟨rfl, rfl⟩ htarget rfl) hf rfl) (.toString _) rfl) hlabel rfl

theorem payloadField_alike (hone : env.toTypeScope.Unbroken) {target : String} {f : Field}
    {component : Component} (htarget : Text.Unbroken target) (hf : Text.Unbroken f.name)
    (hcomponent : Text.Unbroken component.name) :
    Alike True Eq env on (payloadField target f component) := by
  refine .look fun c _ => ?_
  split
  · refine .traces (.hoist (traceLine_bytes htarget hf ?_) (.append _ rfl))
    exact .arg rfl hcomponent rfl
  · split
    · exact .pure rfl
    · refine .look fun l hl => .hoist_then (.append _ rfl) (.traces (.hoist ?_ (.append _ rfl)))
      have hl := hone.packetField hl
      exact traceLine_bytes htarget hf (.arg (.arg rfl hl.header rfl) hl.field rfl)

section Calls

variable (wf : env.program.WellFormed) (hone : env.toTypeScope.Unbroken)

include wf

theorem argument_alike {arg : ExprId}
    (h : (Licence.indifferent env on).Allows env (env.tracing on) arg) (param : Param) :
    Alike P Eq env on (argument expr arg param) :=
  .step (argument_inStep (Licence.indifferent_suits wf on) trivial h param)

include hone

theorem payload_alike {arg : ExprId}
    (h : (Licence.indifferent env on).Allows env (env.tracing on) arg) (param : Param)
    (storage : String) {receiverArgs : List Ty}
    (hargs : ∀ ty ∈ receiverArgs, env.program.InRange ty) :
    Alike P Eq env on (payload expr arg param storage receiverArgs) := by
  have hL := Licence.indifferent_suits wf on
  refine .look fun a ha => ?_
  refine .bind_same (.step (payloadType_inStep hL (hL.sameText fun wf => wf.ty ha) fun _ => hargs))
    fun type _ => ?_
  refine .bind_spells (.step (.freshName .var)) (.freshName rfl) fun name _ hname => ?_
  refine .bind_same (argument_alike wf h param) fun value _ => ?_
  refine .hoist_then (.append _ rfl) (.bind_same ?_ fun _ _ =>
    .hoist_then (.append _ rfl) (.pure rfl))
  unfold payloadMembers
  split
  · rename_i id components hty hnode
    refine .look fun t ht => .forM fun q hq => ?_
    have hmem := List.of_mem_zip hq
    refine payloadField_alike hone hname (hone.names _ (.field ?_ hmem.1)) (hone.names _ ?_)
    · exact Program.mem_of_lookup ht
    · exact .component (Program.mem_of_expr ha) hnode hmem.2
  · exact .pure rfl

theorem loadReceiver_alike (receiver : Expr) {t : ExternalTarget} (convention : Convention)
    (storage : String) {args : List (ExprId × Param)}
    (hty : ∀ ty ∈ t.receiverArgs, env.program.InRange ty)
    (h : ∀ q ∈ args, (Licence.indifferent env on).Allows env (env.tracing on) q.1) :
    Alike P Eq env on (loadReceiver expr receiver t convention storage args) := by
  unfold loadReceiver
  split
  · unfold loadSpecialized
    split
    · exact .pure rfl
    · rename_i rest
      exact .bind_same (payload_alike wf hone (h _ (.head rest)) _ _ hty) fun _ _ => .pure rfl
  · exact .step (loadPlain_inStep (Licence.indifferent_suits wf on) (fun _ _ => trivial) _ _ _ h)

variable {call : Call} (hc : (Licence.indifferent env on).AllowsCall env (env.tracing on) call)
  {id : ExprId}

include hc in
theorem callExternal_alike (method : String) {receiver : Expr}
    (hid : env.At id receiver) :
    Alike P Eq env on (callExternal expr call method receiver) := by
  have hL := Licence.indifferent_suits wf on
  refine .resolve fun t ht => ?_
  have hfound := found_of_externalTarget ht
  have hreceiver := hfound.receiverArgs (wf.ty hid)
  have htexts := fun param => sameText_instantiate (q := param) hL
    (fun wf => inRange_bindings hreceiver (hc.types wf))
    (fun wf _ hp => wf.types _ (hfound.holdsTy (.param hp)))
  have hargs := fun (q : ExprId × Param) (hq : q ∈ call.args.zip t.signature.params) =>
    hc.args _ (List.of_mem_zip hq).1
  refine .bind_same (.step (receiverOwner_inStep hL _)) fun owner _ => ?_
  refine .bind_same (loadReceiver_alike wf hone receiver _ _ hreceiver hargs) fun _ hloaded => ?_
  have hloaded := args_of_loadReceiver hloaded
  refine .bind_same (.step (versionSuffix_inStep _ htexts)) fun suffix _ => ?_
  refine .bind_same (.step (implicitArgs_inStep hL _ _ _ hc.args)) fun implicit _ => ?_
  refine .bind_same (.step (prototypeTypes_inStep _ htexts _)) fun paramTypes _ => ?_
  refine .bind_same (.mapM_same fun q hq => ?_) fun args _ => ?_
  · exact argument_alike wf (hargs q (hloaded q hq)) _
  · have hreturned := hL.sameText fun wf => wf.types _ (hfound.holdsTy .returned)
    refine .bind_same (.step (.typeText hreturned)) fun _ _ => ?_
    exact .hoist_then (.append _ rfl) (.pure rfl)

/-! ### Digests -/

omit wf hone in
theorem traceLine_sending {receiver : String} (h : Text.Unbroken receiver) :
    TraceLine (Digest.sendingTrace receiver) :=
  .append ⟨rfl, rfl⟩ (.arg rfl h rfl)

omit wf hone in
theorem traceLine_field {f : PacketField} (h : f.Unbroken) : TraceLine (Digest.fieldTrace f) :=
  .append (.arg (.arg ⟨rfl, rfl⟩ h.fieldInstance rfl) (.toString _) rfl)
    (.arg (.arg rfl h.field rfl) (.toString _) rfl)

omit wf hone in
theorem announce_alike {d : Digest} (hreceiver : Text.Unbroken d.receiver)
    (hfields : ∀ f ∈ d.fields, f.Unbroken) : Alike P Eq env on d.announce := by
  refine .hoist_then (.append _ rfl) (.traces (.seq ?_ (.forM fun f hf => ?_)))
  · exact .hoist (traceLine_sending hreceiver) (.append _ (.append _ rfl))
  · exact .hoist (traceLine_field (hfields f hf)) (.append _ (.append _ rfl))

section Digests

variable {id : ExprId}
  (hplain : ∀ receiver fields, call.args = [receiver, fields] → env.program.Plain receiver)

include hc hplain

/-- What a digest is made of comes out the same, and stands on one line. -/
theorem digestOfCall_alike :
    Alike P (fun d d' => d = d' ∧ d.Unbroken) env on (Digest.ofCall expr call) := by
  refine Twins.spells (.step ?_) ?_
  · exact digestOfCall_inStep (Licence.indifferent_suits wf on) hc fun _ _ => trivial
  · exact digestOfCall_spells hone fun receiver fields hargs =>
      oneLine_of_plain wf hone (hplain receiver fields hargs)

theorem digestStatement_alike : Alike P SameCode env on (Digest.statementText expr id call) := by
  refine .bind (digestOfCall_alike wf hone hc hplain) ?_
  rintro d _ ⟨rfl, hd⟩ _
  refine .bind_same (.step (.nameOf .digestFields id)) fun list _ => ?_
  refine .bind_same (announce_alike hd.receiver hd.fields) fun _ _ => ?_
  refine .bind_same (.step (.hoist (ended_listLines ..) (.inl trivial))) fun _ _ => ?_
  refine .bind_same (.step (settle_inStep (Licence.indifferent_suits wf on) trivial)) fun _ _ => ?_
  exact .pure (.ended (.append _ rfl))

theorem digestExpression_alike : Alike P Eq env on (Digest.expressionText expr id call) := by
  refine .bind (digestOfCall_alike wf hone hc hplain) ?_
  rintro d _ ⟨rfl, hd⟩ _
  refine .bind_same (.step (.nameOf .digest id)) fun digest _ => ?_
  refine .bind_same (announce_alike hd.receiver hd.fields) fun _ _ => ?_
  refine .bind_same (.step (.hoist (ended_additionLines ..) (.inl trivial))) fun _ _ => ?_
  exact .bind_same (.step (settle_inStep (Licence.indifferent_suits wf on) trivial)) fun _ _ =>
    .pure rfl

end Digests

/-! ### Calls -/

include hc in
theorem callMethod_alike {m : Member} (mode : Mode) (hbase : Indifferent env on m.base) :
    Alike P Eq env on (callMethod expr call m mode) := by
  refine .look fun receiver hreceiver => .ask _ ?_
  split
  · refine .bind_same (.step ?_) fun _ _ => .pure rfl
    refine headerSlot_inStep (Licence.indifferent_suits wf on) ?_ ?_ mode
    · exact fun _ i hi => wf.exists_header hreceiver hi
    · exact wf.id_eq hreceiver ▸ hbase
  · refine .ask _ ?_
    split
    · exact .pure rfl
    · split
      · exact .ask _ (.step (unsupported_inStep _ _))
      · exact callExternal_alike wf hone hc _ hreceiver

theorem callText_alike {e : Expr} (he : env.At id e) (hnode : e.node = .call call)
    (hdigests : env.program.PlainDigests id)
    (hr : ∀ c, env.program.Below id c → Indifferent env on c) (mode : Mode) :
    Alike P Eq env on (callText expr e.id call mode) := by
  have hL := Licence.indifferent_suits wf on
  have hmethod : env.program.Part id call.method := ⟨e, he, hnode ▸ .method call⟩
  have hc : (Licence.indifferent env on).AllowsCall env (env.tracing on) call :=
    Licence.allowsCall_node he hnode fun a ha => hr a (Program.Part.below ⟨e, he, hnode ▸ .arg ha⟩)
  refine .look fun method hm => ?_
  split
  · rename_i m hmember
    have hbase : method.node.Mentions m.base := hmember ▸ .base m
    exact callMethod_alike wf hone hc mode <| hr _ (hmethod.below.part ⟨method, hm, hbase⟩)
  · rename_i path hpath
    by_cases hdigest : path.name = "digest"
    · unfold callFunction
      rw [if_pos hdigest]
      refine digestExpression_alike wf hone hc fun receiver fields hpair => ?_
      exact hdigests id receiver (.refl id)
        ⟨e, call, method, path, fields, he, hnode, hm, hpath, hdigest, hpair⟩
    · have hdecl : ∀ d, path.decl = some d → ∃ b, env.program.decl d = .ok b := fun d hd =>
        Program.exists_lookup (wf.paths method (Program.mem_of_expr hm) path d hpath hd)
      exact .step (callFunction_inStep hL hc (fun _ _ => trivial) _ (absurd · hdigest)
        fun _ => hdecl)
  · exact .fail

/-! ### Expressions -/

theorem nodeText_alike {e : Expr} (he : env.At id e)
    (hdigests : env.program.PlainDigests id)
    (hr : ∀ c, env.program.Below id c → Indifferent env on c) (mode : Mode) :
    Alike P Eq env on (nodeText expr e mode) := by
  by_cases hcall : ∃ call, e.node = .call call
  · obtain ⟨call, hnode⟩ := hcall
    unfold nodeText
    rw [hnode]
    exact callText_alike wf hone he hnode hdigests hr mode
  · exact .step (nodeText_inStep (Licence.indifferent_suits wf on) he
      (fun call hnode => absurd ⟨call, hnode⟩ hcall) hr trivial mode)

/-- An expression whose digests go to plain receivers. -/
theorem indifferent_of_plainDigests {id : ExprId} (hdigests : env.program.PlainDigests id) :
    Indifferent env on id := by
  intro P mode
  cases he : env.program.expr id with
  | error err =>
    refine .of_env (expr_eq_look id mode _) (expr_eq_look id mode _) (.look fun e h => ?_)
    rw [he] at h
    cases h
  | ok e =>
    have hother : (env.tracing on).program.WellFormed := wf
    refine .of_env (expr_eq_nodeText wf he mode) (expr_eq_nodeText hother he mode) ?_
    refine nodeText_alike wf hone he hdigests (fun c hc => ?_) mode
    have hlt := wf.below_lt hc
    exact indifferent_of_plainDigests (hdigests.reached hc.reaches)
termination_by id.index

end Calls

end Lower

end PacketC
