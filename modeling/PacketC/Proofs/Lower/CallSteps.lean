import PacketC.Proofs.Lower.ExprSteps
import PacketC.Proofs.Program.Calls

/-! Calls run in step, and with them all expressions. Only a call can raise an error that is not a
fault of the program. -/

namespace PacketC.Lower

variable {env env' : Env} {L : Licence} {r₁ r₂ : Recur} (hL : L.Suits env env') {arg id : ExprId}
  {e receiver : Expr} {args : List (ExprId × Param)} {t : ExternalTarget}
  {bindings : List (String × Ty)}

/-- The errors that a call can come to. -/
def IsCallError : LowerError → Prop
  | .unsupportedConstruct _ | .invalidArity _ | .unresolvedExternal _ => True
  | .unsupportedWidth _ | .program _ => False

/-- The licence of a call: no other expression raises an error of its own, puts code behind the
statement, or asks for traces. -/
structure Licence.AdmitsCalls (L : Licence) (env env' : Env) : Prop where
  fails : ∀ e, IsCallError e → L.fails e
  defers : L.defers
  traces : env.TracesLike env'

/-- The arguments of the call may be entered, and all it names is there. -/
structure Licence.AllowsCall (L : Licence) (env env' : Env) (call : Call) : Prop where
  types : L.Strict env env' → ∀ ty ∈ call.typeArgs, env.program.InRange ty
  args : ∀ a ∈ call.args, L.Allows env env' a

theorem Licence.allowsCall_node {call : Call} (he : env.At id e)
    (hnode : e.node = .call call) (h : ∀ a ∈ call.args, L.enters a) :
    L.AllowsCall env env' call where
  types wf ty hty := wf.types ty (.node (Program.mem_of_expr he) (hnode ▸ .typeArg hty))
  args a ha := allows_part he (hnode ▸ .arg ha) (h a ha)

variable (hcall : L.AdmitsCalls env env') {call : Call} (hc : L.AllowsCall env env' call)

/-! ### Arguments -/

theorem plainArgument_inStep (h : L.enters arg) (param : Param) :
    Steps env env' L r₁ r₂ (plainArgument · arg param) :=
  .bind (.enter h _) fun _ _ => .pure _

include hL

theorem scalarArgument_inStep (hd : L.defers) {ref : FieldRef}
    (hres : L.Strict env env' → env.program.Resolves ref) (l : PacketField) (name : String)
    (unit : Nat) (param : Param) :
    Steps env env' L r₁ r₂ fun _ => scalarArgument ref l name unit param := by
  refine .bind (.hoist (.append _ rfl) (.inl hd)) fun _ _ => ?_
  split
  · exact .bind (fieldText_inStep hL hres _) fun _ _ =>
      .bind (.hoist (.append _ rfl) (.inl hd)) fun _ _ =>
        .bind (.defer (.append _ rfl) hd) fun _ _ => .pure _
  · exact .bind (.defer (.append _ rfl) hd) fun _ _ => .pure _

omit hL in
theorem bufferArgument_inStep (hd : L.defers) (l : PacketField) (name : String) (param : Param) :
    Steps env env' L r₁ r₂ fun _ => bufferArgument l name param := by
  refine .bind (.hoist (.append _ rfl) (.inl hd)) fun _ _ => ?_
  split
  · exact .bind (.hoist (.append _ rfl) (.inl hd)) fun _ _ =>
      .bind (.defer (.append _ rfl) hd) fun _ _ => .pure _
  · exact .bind (.defer (.append _ rfl) hd) fun _ _ => .pure _

theorem argument_inStep (hd : L.defers) (h : L.Allows env env' arg) (param : Param) :
    Steps env env' L r₁ r₂ (argument · arg param) := by
  refine .expr hL h.there fun a ha => ?_
  split
  · exact plainArgument_inStep h.enters param
  · rename_i ref href
    have hres : L.Strict env env' → env.program.Resolves ref := by
      intro wf
      split at href
      · exact wf.resolves ha href
      · cases href
    refine .packetField hL hres fun l _ => .bind (.nameOf .value arg) fun name _ => ?_
    split
    · exact scalarArgument_inStep hL hd hres ..
    · exact bufferArgument_inStep hd ..

theorem storageOf_inStep (h : L.Allows env env' arg) (owner : String) :
    Steps env env' L r₁ r₂ fun _ => storageOf arg owner := by
  refine .expr hL h.there fun a _ => ?_
  split
  · exact .pure _
  · exact .pure _
  · exact .bind (.report ..) fun _ _ => .pure _

theorem payloadType_inStep {a : Expr} (ha : SameText env env' a.ty) {receiverArgs : List Ty}
    (hargs : L.Strict env env' → ∀ ty ∈ receiverArgs, env.program.InRange ty) :
    Steps env env' L r₁ r₂ fun _ => payloadType a receiverArgs := by
  unfold payloadType
  split
  · exact .typeText ha
  · refine .ask (hL.same (f := fun e => receiverArgs.head?.bind e.program.typeName?) ?_) ?_
    · intro wf
      cases receiverArgs with
      | nil => rfl
      | cons ty rest => exact wf.program.typeName?_eq (hargs wf ty (.head rest))
    · split
      · exact .pure _
      · exact .bind (.warn ..) fun _ _ => .pure _

include hcall in
theorem payloadField_inStep (target : String) (f : Field) {component : Component}
    (hc : L.Strict env env' → ∃ c, env.At component.value c) :
    Steps env env' L r₁ r₂ fun _ => payloadField target f component := by
  refine .expr hL hc fun c hc => ?_
  split
  · refine .traces hcall.traces fun b => ?_
    split
    · exact .hoist (.append _ rfl) (.inl hcall.defers)
    · exact .pure _
  · split
    · exact .pure _
    · rename_i ref href
      refine .packetField hL (fun wf => wf.resolves hc href) fun l _ => ?_
      refine .bind (.hoist (.append _ rfl) (.inl hcall.defers)) fun _ _ =>
        .traces hcall.traces fun b => ?_
      split
      · exact .hoist (.append _ rfl) (.inl hcall.defers)
      · exact .pure _

include hcall in
theorem payload_inStep (h : L.Allows env env' arg) (param : Param) (storage : String)
    {receiverArgs : List Ty}
    (hargs : L.Strict env env' → ∀ ty ∈ receiverArgs, env.program.InRange ty) :
    Steps env env' L r₁ r₂ (payload · arg param storage receiverArgs) := by
  refine .expr hL h.there fun a ha => ?_
  refine .bind (payloadType_inStep hL (hL.sameText fun wf => wf.ty ha) hargs) fun type _ => ?_
  refine .bind (.freshName .var) fun name _ => ?_
  refine .bind (argument_inStep hL hcall.defers h param) fun value _ => ?_
  refine .bind (.hoist (.append _ rfl) (.inl hcall.defers)) fun _ _ => .bind ?_ fun _ _ =>
    .bind (.hoist (.append _ rfl) (.inl hcall.defers)) fun _ _ => .pure _
  unfold payloadMembers
  split
  · rename_i id components hty hnode
    refine .look hL (fun wf => ?_) (·.typeDecl) fun t _ => .forM fun q hq => ?_
    · exact wf.exists_typeDecl (.expr (Program.mem_of_expr ha)) (hty ▸ .struct id)
    · refine payloadField_inStep hL hcall _ _ fun wf => wf.exists_part ha ?_
      exact hnode ▸ .component (List.of_mem_zip hq).2
  · exact .pure _

/-! ### External objects -/

theorem receiverOwner_inStep (path : Path) :
    Steps env env' L r₁ r₂ fun _ => receiverOwner path := by
  unfold receiverOwner
  split
  · exact .pure _
  · exact .isLocal hL _ fun _ => .pure _

theorem loadPlain_inStep (hfails : ∀ e, IsCallError e → L.fails e) (t : ExternalTarget)
    (convention : Convention) (storage : String) (h : ∀ q ∈ args, L.Allows env env' q.1) :
    Steps env env' L r₁ r₂ fun _ => loadPlain t convention storage args := by
  unfold loadPlain
  split
  · exact .pure _
  · refine .expr hL (h _ (.head [])).there fun a ha => ?_
    exact .bind (.typeText (hL.sameText fun wf => wf.ty ha)) fun _ _ => .pure _
  · split
    · exact .throw (hfails _ trivial)
    · exact .pure _

include hcall in
theorem loadReceiver_inStep (receiver : Expr) (convention : Convention) (storage : String)
    (hty : L.Strict env env' → ∀ ty ∈ t.receiverArgs, env.program.InRange ty)
    (h : ∀ q ∈ args, L.Allows env env' q.1) :
    Steps env env' L r₁ r₂ (loadReceiver · receiver t convention storage args) := by
  unfold Steps loadReceiver
  split
  · unfold loadSpecialized
    split
    · exact .pure _
    · rename_i arg param rest
      exact .bind (payload_inStep hL hcall (h _ (.head rest)) _ _ hty) fun _ _ => .pure _
  · exact loadPlain_inStep hL hcall.fails t convention storage h

omit hL in
/-- A payload comes to the type that is found for it. -/
theorem exists_payloadType {param : Param} {storage type : String} {receiverArgs : List Ty}
    (h : Returns env (payload r₁ arg param storage receiverArgs) type) :
    ∃ a, env.At arg a ∧ Returns env (payloadType a receiverArgs) type := by
  obtain ⟨a, ha, h⟩ := h.of_bind
  obtain ⟨used, hused, h⟩ := h.of_bind
  obtain ⟨name, _, h⟩ := h.of_bind
  obtain ⟨value, _, h⟩ := h.of_bind
  obtain ⟨_, _, h⟩ := h.of_bind
  obtain ⟨_, _, h⟩ := h.of_bind
  obtain ⟨_, _, h⟩ := h.of_bind
  exact ⟨a, ha.of_look, h.of_pure ▸ hused⟩

omit hL in
/-- What is left to be passed was to be passed from the start. -/
theorem args_of_loadReceiver {convention : Convention} {storage : String} {loaded : Loaded}
    (h : Returns env (loadReceiver r₁ receiver t convention storage args) loaded) :
    ∀ q ∈ loaded.args, q ∈ args := by
  unfold loadReceiver at h
  split at h
  · unfold loadSpecialized at h
    split at h
    · rw [← h.of_pure]; exact nofun
    · obtain ⟨_, _, h⟩ := Returns.of_bind h
      rw [← h.of_pure]; exact fun q hq => .tail _ hq
  · unfold loadPlain at h
    split at h
    · rw [← h.of_pure]; exact fun q hq => hq
    · obtain ⟨_, _, h⟩ := Returns.of_bind h
      obtain ⟨_, _, h⟩ := Returns.of_bind h
      rw [← h.of_pure]; exact fun q hq => hq
    · split at h
      · obtain ⟨s, s', hs⟩ := h
        cases hs
      · rw [← h.of_pure]; exact fun q hq => hq

/-- The types of the parameters have the same texts, whatever their variables stand for. -/
theorem sameText_instantiate (hb : L.Strict env env' → ∀ q ∈ bindings, env.program.InRange q.2)
    (ht : L.Strict env env' → ∀ param ∈ t.signature.params, env.program.InRange param.ty)
    {q : Param} (hq : q ∈ t.signature.params) : SameText env env' (instantiate bindings q.ty) :=
  hL.sameText fun wf => inRange_instantiate (hb wf) (ht wf q hq)

omit hL in
theorem versionSuffix_inStep (convention : Convention)
    (h : ∀ param ∈ t.signature.params, SameText env env' (instantiate bindings param.ty)) :
    Steps env env' L r₁ r₂ fun _ => versionSuffix t convention bindings := by
  unfold versionSuffix
  split
  · refine .bind (.mapM fun param hparam => .typeText (h param ?_)) fun _ _ => .pure _
    obtain ⟨i, _, hi⟩ := List.mem_filterMap.1 hparam
    exact List.mem_of_getElem? hi
  · exact .pure _

theorem implicitArgs_inStep (convention : Convention) (owner storage : String)
    {args : List ExprId} (h : ∀ a ∈ args, L.Allows env env' a) :
    Steps env env' L r₁ r₂ fun _ => implicitArgs convention owner storage args := by
  unfold implicitArgs
  split
  · exact .pure _
  · dsimp only
    split
    · exact .bind (.pure _) fun _ _ => .pure _
    · exact .bind (storageOf_inStep hL (h _ (.head _)) owner) fun _ _ => .pure _

omit hL in
theorem prototypeTypes_inStep (convention : Convention)
    (h : ∀ param ∈ t.signature.params, SameText env env' (instantiate bindings param.ty))
    (payloadType : Option String) :
    Steps env env' L r₁ r₂ fun _ => prototypeTypes t convention bindings payloadType := by
  refine .bind (.mapM fun param hparam => .typeText (h param hparam)) fun declared _ => ?_
  dsimp only
  split <;> exact .pure _

include hcall

/-- The type of the receiver names a declaration, so only what it names can be amiss. -/
theorem fails_of_externalOf {ty : Ty} (hty : env.program.HoldsTy ty) {e : LowerError}
    (h : externalOf env.program ty = .error e) : L.fails e := by
  have hprogram : ∀ id, ty.Mentions id → ∀ f, env.program.typeDecl id = .error f →
      L.fails (.program f) := by
    intro id hm f hf
    rcases hL with wf | ⟨-, -, hprogram⟩
    · obtain ⟨d, hd⟩ := wf.exists_typeDecl hty hm
      rw [hd] at hf; cases hf
    · exact hprogram f
  unfold externalOf at h
  cases ty with
  | external id | name id =>
    simp only [pure_bind] at h
    split at h
    · rename_i f hf
      cases h
      exact hprogram id (by constructor) f hf
    · split at h <;> cases h
      exact hcall.fails _ trivial
  | specialized base args =>
    simp only [pure_bind] at h
    split at h
    · rename_i f hf
      cases h
      exact hprogram base (.base base args) f hf
    · split at h <;> cases h
      exact hcall.fails _ trivial
  | _ => cases h; exact hcall.fails _ trivial

theorem fails_of_externalTarget (hty : env.program.HoldsTy receiver.ty) {method : String}
    {e : LowerError} (h : ExternalTarget.of env.program receiver method = .error e) :
    L.fails e := by
  unfold ExternalTarget.of at h
  cases hx : externalOf env.program receiver.ty with
  | error e' =>
    rw [hx] at h
    cases h
    exact fails_of_externalOf hL hcall hty hx
  | ok q =>
    rw [hx] at h
    simp only [bind, Except.bind] at h
    split at h
    · cases h; exact hcall.fails _ trivial
    · split at h
      · cases h
      · cases h; exact hcall.fails _ trivial

include hc in
theorem callExternal_inStep (method : String) (hr : env.At id receiver) :
    Steps env env' L r₁ r₂ (callExternal · call method receiver) := by
  refine .resolve (hL.same (f := fun e => ExternalTarget.of e.program receiver method)
    fun wf => wf.program.externalTarget_eq (wf.ty hr) method) (fun e he => ?_) fun t ht => ?_
  · exact fails_of_externalTarget hL hcall (.expr (Program.mem_of_expr hr)) he
  · have hfound := found_of_externalTarget ht
    have hty : L.Strict env env' → ∀ ty ∈ t.receiverArgs, env.program.InRange ty := fun wf =>
      hfound.receiverArgs (wf.ty hr)
    have htexts := fun param => sameText_instantiate (q := param) hL
      (fun wf => inRange_bindings (hty wf) (hc.types wf))
      (fun wf _ hp => wf.types _ (hfound.holdsTy (.param hp)))
    have hreturned := hL.sameText fun wf => wf.types _ (hfound.holdsTy .returned)
    have hargs : ∀ q ∈ call.args.zip t.signature.params, L.Allows env env' q.1 := fun q hq =>
      hc.args _ (List.of_mem_zip hq).1
    refine .bind (receiverOwner_inStep hL _) fun owner _ => ?_
    refine .bind (loadReceiver_inStep hL hcall _ _ _ hty hargs) fun loaded hloaded => ?_
    have hloaded := args_of_loadReceiver hloaded
    refine .bind (versionSuffix_inStep _ htexts) fun suffix _ => ?_
    refine .bind (implicitArgs_inStep hL _ _ _ hc.args) fun implicit _ => ?_
    refine .bind (prototypeTypes_inStep _ htexts _) fun paramTypes _ => ?_
    refine .bind (.mapM fun q hq => ?_) fun args _ => ?_
    · exact argument_inStep hL hcall.defers (hargs q (hloaded q hq)) _
    · exact .bind (.typeText hreturned) fun _ _ =>
        .bind (.hoist (.append _ rfl) (.inl hcall.defers)) fun _ _ => .pure _

/-! ### Digests -/

omit hcall in
theorem packetFields_inStep {items : List ExprId}
    (hitems : L.Strict env env' → ∀ i ∈ items, ∃ e, env.At i e) :
    Steps env env' L r₁ r₂ fun _ => Digest.packetFields items := by
  induction items with
  | nil => exact .pure _
  | cons item rest ih =>
    have ih := ih fun wf i hi => hitems wf i (.tail item hi)
    refine .expr hL (fun wf => hitems wf item (.head rest)) fun e he => ?_
    split
    · rename_i ref href
      refine .packetField hL (fun wf => wf.resolves he href) fun f _ => ?_
      exact .bind ih fun _ _ => .pure _
    · exact .bind (.report ..) fun _ _ => ih

omit hL hcall in
theorem digestItems_cases {p : Program} {fields : ExprId} {items : List ExprId}
    (h : Digest.items p fields = .ok items) : ∀ i ∈ items, i = fields ∨ p.Part fields i := by
  obtain ⟨e, he, h⟩ := Program.bind_eq_ok_iff.1 h
  intro i hi
  split at h
  · rename_i items hnode
    cases h
    exact .inr ⟨e, he, hnode ▸ .item hi⟩
  · rename_i components hnode
    cases h
    obtain ⟨c, hc, rfl⟩ := List.mem_map.1 hi
    exact .inr ⟨e, he, hnode ▸ .component hc⟩
  · cases h
    exact .inl (List.mem_singleton.1 hi)

include hc

omit hcall in
theorem digestOfCall_inStep (hfails : ∀ e, IsCallError e → L.fails e) :
    Steps env env' L r₁ r₂ (Digest.ofCall · call) := by
  refine .resolve (hL.same (f := fun e => Digest.typeName e.program call.typeArgs) fun wf => ?_)
    (fun e he => ?_) fun name _ => .resolve rfl (fun e he => ?_) fun args hpair => ?_
  · cases hlist : call.typeArgs with
    | nil => rfl
    | cons ty rest =>
      rw [Digest.typeName, Digest.typeName,
        wf.program.typeName?_eq (hc.types wf ty (by simp [hlist]))]
  · unfold Digest.typeName at he
    split at he
    · cases he; exact hfails _ trivial
    · cases he
  · unfold Digest.arguments at he
    split at he
    · cases he
    · cases he; exact hfails _ trivial
  · obtain ⟨receiver, fields⟩ := args
    have hlist : call.args = [receiver, fields] := by
      unfold Digest.arguments at hpair
      split at hpair
      · rename_i hargs; cases hpair; exact hargs
      · cases hpair
    have hreceiver := hc.args receiver (by rw [hlist]; exact .head _)
    have hfields := hc.args fields (by rw [hlist]; exact .tail _ (.head []))
    refine .bind (.enter hreceiver.enters _) fun _ _ => ?_
    refine .look hL (fun wf => ?_) (·.digestItems) fun items hitems => ?_
    · obtain ⟨e, he⟩ := hfields.there wf
      simp only [Digest.items, he, bind, Except.bind]
      split <;> exact ⟨_, rfl⟩
    · refine .bind (packetFields_inStep hL fun wf i hi => ?_) fun _ _ => .pure _
      rcases digestItems_cases hitems i hi with rfl | ⟨e, he, hm⟩
      · exact hfields.there wf
      · exact wf.exists_part he hm

omit hL hcall hc

theorem ended_listLines (list : String) (fields : List PacketField) :
    Text.Ended (Text.unlines (Digest.listLines list fields)) := by
  refine .unlines (List.cons_ne_nil _ _) ?_
  simp only [Digest.listLines, List.cons_append, List.nil_append, List.forall_mem_cons]
  refine ⟨.append _ rfl, .append _ rfl, .append _ rfl, .append _ rfl, fun line hline => ?_⟩
  obtain ⟨q, _, hline⟩ := List.mem_flatMap.1 hline
  simp only [List.mem_cons, List.not_mem_nil, or_false] at hline
  rcases hline with rfl | rfl <;> exact .append _ rfl

theorem ended_additionLines (digest : String) (d : Digest) :
    Text.Ended (Text.unlines (Digest.additionLines digest d)) := by
  refine .unlines (List.cons_ne_nil _ _)
    (List.forall_mem_cons.2 ⟨.append _ rfl, fun line hline => ?_⟩)
  obtain ⟨f, _, rfl⟩ := List.mem_map.1 hline
  exact .append _ rfl

include hcall in
theorem announce_inStep (d : Digest) : Steps env env' L r₁ r₂ fun _ => d.announce := by
  have hd := hcall.defers
  refine .bind (.hoist (.append _ rfl) (.inl hd)) fun _ _ => .traces hcall.traces fun b => ?_
  split
  · exact .bind (.hoist (.append _ (.append _ rfl)) (.inl hd)) fun _ _ => .forM fun _ _ =>
      .hoist (.append _ (.append _ rfl)) (.inl hd)
  · exact .pure _

include hL in
theorem settle_inStep (hd : L.defers) : Steps env env' L r₁ r₂ fun _ => Digest.settle :=
  .config hL fun _ => .defer (.append _ rfl) hd

include hL hcall hc

theorem digestStatement_inStep (id : ExprId) :
    Steps env env' L r₁ r₂ (Digest.statementText · id call) :=
  .bind (digestOfCall_inStep hL hc hcall.fails) fun d _ =>
  .bind (.nameOf .digestFields id) fun _ _ =>
    .bind (announce_inStep hcall d) fun _ _ =>
    .bind (.hoist (ended_listLines ..) (.inl hcall.defers)) fun _ _ =>
      .bind (settle_inStep hL hcall.defers) fun _ _ => .pure _

theorem digestExpression_inStep (id : ExprId) :
    Steps env env' L r₁ r₂ (Digest.expressionText · id call) :=
  .bind (digestOfCall_inStep hL hc hcall.fails) fun d _ =>
    .bind (.nameOf .digest id) fun _ _ =>
    .bind (announce_inStep hcall d) fun _ _ =>
    .bind (.hoist (ended_additionLines ..) (.inl hcall.defers)) fun _ _ =>
      .bind (settle_inStep hL hcall.defers) fun _ _ => .pure _

/-! ### Methods and functions -/

variable {m : Member}

theorem callMethod_inStep (mode : Mode) (hbase : L.Allows env env' m.base) :
    Steps env env' L r₁ r₂ (callMethod · call m mode) := by
  refine .expr hL hbase.there fun receiver hr => .ask (hL.same
    (f := fun e => headerMethod? e.program receiver m.member) fun wf =>
      wf.program.headerMethod?_eq (wf.ty hr) _) ?_
  split
  · refine .bind (headerSlot_inStep hL ?_ (hL.enters_id hr hbase.enters) _) fun _ _ => .pure _
    exact fun wf h hh => wf.exists_header hr hh
  · refine .ask (hL.same (f := fun e =>
      if m.member = "apply" then appliedTable? e.program receiver else none) fun wf => ?_) ?_
    · rw [wf.program.appliedTable?_eq (wf.paths receiver (Program.mem_of_expr hr))]
    · split
      · exact .pure _
      · split
        · refine .ask (hL.same (f := fun e => (e.program.typeName? receiver.ty).getD "extern")
            fun wf => ?_) (unsupported_inStep _ _)
          rw [wf.program.typeName?_eq (wf.ty hr)]
        · exact callExternal_inStep hL hcall hc _ hr

omit hcall hc in
theorem functionArgument_inStep (h : L.Allows env env' arg) :
    Steps env env' L r₁ r₂ (functionArgument · arg) := by
  refine .expr hL h.there fun a ha => ?_
  split
  · rename_i ref href
    exact .packetField hL (fun wf => wf.resolves ha href) fun _ _ => .pure _
  · exact .enter h.enters _

omit hcall hc in
theorem functionArguments_inStep
    (hparams : L.Strict env env' → ∀ q ∈ args, env.program.InRange q.2.ty)
    (h : ∀ q ∈ args, L.Allows env env' q.1) :
    Steps env env' L r₁ r₂ (functionArguments · args) := by
  induction args with
  | nil => exact .pure _
  | cons q rest ih =>
    have ih := ih (fun wf q' hq => hparams wf q' (.tail q hq)) fun q' hq => h q' (.tail q hq)
    have hparam := fun wf => hparams wf q (.head rest)
    refine .ask (hL.same (f := fun e => isMetadataTy e.program q.2.ty) fun wf =>
      wf.program.isMetadataTy_eq (hparam wf)) ?_
    split
    · exact ih
    · exact .bind (functionArgument_inStep hL (h q (.head rest))) fun _ _ =>
        .bind (.typeText (hL.sameText hparam)) fun _ _ => .bind ih fun _ _ => .pure _

omit hcall in
theorem callFunction_inStep (hfails : ∀ e, IsCallError e → L.fails e) (id : ExprId) {path : Path}
    (hdigest : path.name = "digest" → L.AdmitsCalls env env')
    (hpath : L.Strict env env' → ∀ d, path.decl = some d → ∃ b, env.program.decl d = .ok b) :
    Steps env env' L r₁ r₂ (callFunction · id call path) := by
  unfold Steps callFunction
  split
  · exact digestExpression_inStep hL (hdigest ‹_›) hc id
  · refine .look hL (fun wf => ?_) (·.functionSignature) fun signature hs => ?_
    · unfold functionSignature?
      split
      · exact ⟨_, rfl⟩
      · rename_i d hd
        obtain ⟨b, hb⟩ := hpath wf d hd
        exact ⟨_, by rw [hb]; rfl⟩
    · split
      · split
        · exact .bind (.hoist (.append _ rfl) (.inr (by simp +decide [prototype]))) fun _ _ =>
            .pure _
        · exact .throw (hfails _ trivial)
      · have hsignature := fun (wf : L.Strict env env') ty hty =>
          wf.types ty (holdsTy_of_functionSignature hs hty)
        refine .bind (functionArguments_inStep hL ?_ ?_) fun _ _ => ?_
        · exact fun wf q hq => hsignature wf _ (.param (List.of_mem_zip hq).2)
        · exact fun q hq => hc.args _ (List.of_mem_zip hq).1
        · exact .bind (.typeText (hL.sameText fun wf => hsignature wf _ .returned)) fun _ _ =>
            .bind (.hoist (.append _ rfl) (.inr (by simp +decide [prototype]))) fun _ _ => .pure _

omit hc in
theorem callText_inStep (he : env.At id e) (hnode : e.node = .call call)
    (h : ∀ c, env.program.Below id c → L.enters c) (mode : Mode) :
    Steps env env' L r₁ r₂ (callText · e.id call mode) := by
  have hmethod : env.program.Part id call.method := ⟨e, he, hnode ▸ .method call⟩
  have hc : L.AllowsCall env env' call := Licence.allowsCall_node he hnode fun a ha =>
    h a (Program.Part.below ⟨e, he, hnode ▸ .arg ha⟩)
  refine .expr hL (fun wf => wf.exists_part he (hnode ▸ .method call)) fun method hm => ?_
  split
  · rename_i m hmember
    have hbase : method.node.Mentions m.base := hmember ▸ .base m
    exact callMethod_inStep hL hcall hc mode
      (Licence.allows_part hm hbase (h _ (hmethod.below.part ⟨method, hm, hbase⟩)))
  · rename_i path hpath
    refine callFunction_inStep hL hc hcall.fails _ (fun _ => hcall) fun wf d hd => ?_
    exact Program.exists_lookup (wf.paths method (Program.mem_of_expr hm) path d hpath hd)
  · exact .throw (hcall.fails _ trivial)

/-! ### Expressions -/

omit hL hcall hc

theorem constant_inStep (hty : SameText env env' e.ty) (value : Int) (base : UInt32) :
    Steps env env' L r₁ r₂ fun _ => constant e value base := by
  unfold constant
  split
  · split
    · exact .bind (.nameOf (.const ..) _) fun _ _ =>
        .bind (.hoist (.append _ rfl) (.inr (by simp +decide))) fun _ _ => .pure _
    · exact .bind (.typeText hty) fun _ _ => .pure _
  · exact .pure _

include hL

theorem plainMember_inStep (he : env.At id e) (h : L.enters m.base) (mode : Mode) :
    Steps env env' L r₁ r₂ (plainMember · e m mode) := by
  refine .look hL (fun wf => ?_) (·.enumMemberName) fun name _ => ?_
  · have hty : env.program.HoldsTy e.ty := .expr (Program.mem_of_expr he)
    have hdecl : ∀ t, e.ty.Mentions t → ∃ d, env.program.typeDecl t = .ok d :=
      fun t ht => wf.exists_typeDecl hty ht
    unfold enumMemberName
    split
    · rename_i t hty
      obtain ⟨d, hd⟩ := hdecl t (hty ▸ .enum t)
      exact ⟨_, by rw [hd]; rfl⟩
    · rename_i t hty
      obtain ⟨d, hd⟩ := hdecl t (hty ▸ .error t)
      exact ⟨_, by rw [hd]; rfl⟩
    · exact ⟨_, rfl⟩
  · split
    · exact .pure _
    · exact .bind (.enter h _) fun _ _ => .pure _

theorem member_inStep (he : env.At id e) (hnode : e.node = .member m)
    (h : L.enters m.base) (mode : Mode) : Steps env env' L r₁ r₂ (member · e m mode) := by
  have hmem := Program.mem_of_expr he
  unfold member
  split
  · rename_i ref href
    exact fieldText_inStep hL (fun wf => wf.fieldMembers e hmem m ref hnode href) mode
  · split
    · rename_i i hi
      refine .header hL (fun wf => ?_) fun _ => .pure _
      exact Program.exists_lookup (wf.headerMembers e hmem m i hnode hi)
    · refine .expr hL (fun wf => wf.exists_part he (hnode ▸ .base m)) fun base hb => .ask (hL.same
        (f := fun e => isHeaderTy e.program base.ty) fun wf =>
          wf.program.isHeaderTy_eq (wf.ty hb)) ?_
      split
      · rename_i path _ _
        have hsame := hL.same (f := fun e => parserFieldText e.program path base.ty m.member)
          fun wf => wf.program.parserFieldText_eq (wf.ty hb) path m.member
        refine .of_pure rfl ?_
        exact congrArg (fun text => (pure text : LowerM String) env') hsame
      · exact plainMember_inStep hL he h mode

omit hL in
theorem mux_inStep {cond ifTrue ifFalse : ExprId} (hc : L.enters cond) (ht : L.enters ifTrue)
    (hf : L.enters ifFalse) (mode : Mode) :
    Steps env env' L r₁ r₂ (mux · cond ifTrue ifFalse mode) :=
  .bind (.enter hc _) fun _ _ => .bind (.enter ht _) fun _ _ => .bind (.enter hf _) fun _ _ =>
    .pure _

theorem structLines_inStep (mode : Mode) {components : List Component}
    (h : ∀ c ∈ components, L.Allows env env' c.value) :
    Steps env env' L r₁ r₂ (structLines · mode components) := by
  induction components with
  | nil => exact .pure _
  | cons c rest ih =>
    have ih := ih fun c' hc => h c' (.tail c hc)
    refine .expr hL (h c (.head rest)).there fun e _ => ?_
    dsimp only
    split
    · exact .bind (.pure _) fun _ _ => .bind ih fun _ _ => .pure _
    · exact .bind (.enter (h c (.head rest)).enters _) fun _ _ => .bind (.pure _) fun _ _ =>
        .bind ih fun _ _ => .pure _

theorem structInit_inStep (hty : SameText env env' e.ty) (mode : Mode) {components : List Component}
    (h : ∀ c ∈ components, L.Allows env env' c.value) :
    Steps env env' L r₁ r₂ (structInit · e components mode) :=
  .bind (.typeText hty) fun _ _ => .bind (structLines_inStep hL mode h) fun _ _ =>
    .config hL fun _ => .pure _

/-- A node enters only what stands below it, marks nothing but itself, and only a call raises an
error of its own or puts code behind the statement. -/
theorem nodeText_inStep (he : env.At id e)
    (hcall : ∀ call, e.node = .call call → L.AdmitsCalls env env')
    (h : ∀ c, env.program.Below id c → L.enters c) (hid : L.marks e.id) (mode : Mode) :
    Steps env env' L r₁ r₂ (nodeText · e mode) := by
  have hpart : ∀ c, e.node.Mentions c → L.Allows env env' c := fun c hc =>
    Licence.allows_part he hc (h c (Program.Part.below ⟨e, he, hc⟩))
  have hbelow : ∀ c i, e.node.Mentions c → env.program.Reaches c i → L.enters i :=
    fun c i hc hi => h i ⟨c, ⟨e, he, hc⟩, hi⟩
  have hty : SameText env env' e.ty := hL.sameText fun wf => wf.ty he
  have htext : ∀ ty, e.node.HoldsTy ty → SameText env env' ty := fun ty hty =>
    hL.sameText fun wf => wf.types ty (.node (Program.mem_of_expr he) hty)
  unfold nodeText
  split <;> rename_i hnode
  · exact constant_inStep hty ..
  · exact .pure _
  · exact .pure _
  · exact .pure _
  · exact .typeText (htext _ (hnode ▸ .typeName _))
  · exact pathText_inStep hL ..
  · exact member_inStep hL he hnode (hpart _ (hnode ▸ .base _)).enters mode
  · exact unary_inStep _ _ (hpart _ (hnode ▸ .operand ..)).enters mode
  · exact binary_inStep hL hty _ (hpart _ (hnode ▸ .left ..)) (hpart _ (hnode ▸ .right ..)) mode
  · exact mux_inStep (hpart _ (hnode ▸ .cond ..)).enters (hpart _ (hnode ▸ .ifTrue ..)).enters
      (hpart _ (hnode ▸ .ifFalse ..)).enters mode
  · exact slice_inStep _ (hpart _ (hnode ▸ .sliced ..)).enters _ mode
  · exact concat_inStep hL (hpart _ (hnode ▸ .upper ..)).enters (hpart _ (hnode ▸ .lower ..)) mode
  · exact cast_inStep hL (htext _ (hnode ▸ .dest ..)) (hpart _ (hnode ▸ .converted ..)) mode
  · exact bufferText_inStep hL hid fun wf i hi => (hpart i (hnode ▸ .item hi)).there wf
  · exact structInit_inStep hL hty mode fun c hc => hpart _ (hnode ▸ .component hc)
  · exact transition_inStep hL hid (fun k hk => hpart k (hnode ▸ .key hk))
      (fun wf a ha => (hpart _ (hnode ▸ .keyset ha)).there wf)
      fun a ha i hi => hbelow _ i (hnode ▸ .keyset ha) hi
  · exact unsupported_inStep _ _
  · exact unsupported_inStep _ _
  · exact callText_inStep hL (hcall _ hnode) he hnode h mode

end PacketC.Lower
