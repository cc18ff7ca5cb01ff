import PacketC.Proofs.Prose.Expressions

/-! Calls are written in any manner, and with them all expressions are. An argument that is written
back and the members of a payload apply macros of their own. -/

namespace PacketC.Lower

open Code

variable {env : Env} {M : Manner env} {A : ExprId → Prop} {C : M.World → Prop} {recur : Recur}

section Parts

variable (hA : M.Admits A) (hr : M.Each A recur) {arg id : ExprId} {storage : String} {call : Call}
  {e : Expr} {d : Digest}

/-! ### Arguments -/

include hr in
theorem plainArgument_holds (harg : A arg) (param : Param) :
    M.Holds C (plainArgument recur arg param) M.Text := by
  refine .bind (hr harg _) fun text _ => .pure fun h => ?_
  split
  · exact (M.text.opens rfl).last h.1.part
  · rw [String.empty_append]
    exact h.1

variable {w : M.World}

theorem announces_scalar (m : String) (unit : Nat) : M.Announces m s!"uint{unit}_t {m};" w := by
  have huint : TypeLike "uint" := ⟨by decide, by decide⟩
  have hlike : TypeLike ("uint" ++ toString unit ++ "_t") :=
    (huint.append (all_toString (by decide) unit)).append (by decide)
  have hunit : M.Bare ("uint" ++ toString unit) := by
    refine M.bare.spelled ?_
    rw [String.toList_append, List.all_append, all_toString (by decide)]
    decide
  have hsplit : "uint" ++ toString unit ++ "_t " = "uint" ++ toString unit ++ "_t" ++ " " := by
    simp only [String.append_assoc]
    rfl
  have hend : Follows ";" := .ofList rfl
  have htype : Introduces env.toTypeScope ("uint" ++ toString unit ++ "_t ") := hsplit ▸ .like hlike
  exact (M.announces m htype (fun _ => (hunit.longer rfl).piece) hend fun _ =>
    M.piece.fixed rfl).whole

/-- What a scalar is given before the call, and what is done with it after. -/
theorem scalarUse_holds (hN : M.Naming) {ref : FieldRef} {l : PacketField}
    (hl : env.program.packetField ref = .ok l) (hgrants : M.Grants l) (name : String)
    (param : Param) :
    M.Holds (fun w => M.Text name w ∧ C w) (do
      if param.direction = .inOut then
        let value ← fieldText ref .value
        hoist s!"{name} = {value};"
      defer (setField l name)
      return "&" ++ name) M.Text := by
  have hback : ∀ {D : M.World → Prop}, (∀ {w}, D w → M.Text name w) →
      M.Holds D (do defer (setField l name); return "&" ++ name) M.Text := fun h =>
    .defer_then (fun hD => hgrants.set (h hD).piece)
      (.pure fun hD => (M.text.opens rfl).last (h hD).part)
  dsimp only
  split
  · refine .bind (fieldText_holds hN (fun l' hl' => ?_) _) fun value _ => ?_
    · cases hl.symm.trans hl'
      exact hgrants
    · refine .hoist_then (fun hC => ?_) (hback fun hC => hC.2.1)
      exact (M.code.start hC.2.1.code rfl).close hC.1.piece rfl
  · exact hback And.left

theorem bufferUse_holds {l : PacketField} (hgrants : M.Grants l) (name : String) (param : Param) :
    M.Holds (fun w => M.Text name w ∧ C w) (do
      if param.direction = .inOut then hoist (extractPacket l l.fieldId name)
      defer (modifyField l name (toString l.bytes))
      return name) M.Text := by
  have hback : M.Holds (fun w => M.Text name w ∧ C w)
      (do defer (modifyField l name (toString l.bytes)); return name) M.Text :=
    .defer_then (fun hC => hgrants.modify hC.1.piece (M.piece.number _)) (.pure And.left)
  dsimp only
  split
  · exact .hoist_then (fun hC => hgrants.extract hC.1.piece) hback
  · exact hback

include hA hr in
theorem argument_holds (harg : A arg) (param : Param) :
    M.Holds C (argument recur arg param) M.Text := by
  refine .look fun a ha => ?_
  split
  · exact plainArgument_holds hr harg param
  · rename_i ref href
    have href : a.fieldRef? = some ref := by
      split at href
      · exact href
      · cases href
    refine .look fun l hl => ?_
    have hgrants := hA.field harg ha href hl
    cases hbits : (Container.ofWidth l.width).bits? with
    | some unit =>
      refine hA.naming.nameOf (M.hint (by decide)) (fun m _ _ => announces_scalar m unit)
        (fun m => scalarUse_holds hA.naming hl hgrants m param) (by decide) fun m => ?_
      simp only [issue_of_expr ha, argumentCode, href, hl, hbits, if_pos, Option.bind_eq_bind,
        Option.bind_some, Except.toOption]
    | none =>
      refine hA.naming.nameOf (M.hint (by decide))
        (fun m _ _ => (Manner.announcesBytes m l.bytes rfl rfl).whole)
        (fun m => bufferUse_holds hgrants m param) (by decide) fun m => ?_
      simp only [issue_of_expr ha, argumentCode, href, hl, hbits, if_pos, Option.bind_eq_bind,
        Option.bind_some, Except.toOption]

/-! ### Payloads -/

theorem typeText_of_payloadType {a : Expr} {receiverArgs : List Ty} {type : String}
    (h : Returns env (payloadType a receiverArgs) type) : TypeText env.toTypeScope type := by
  unfold payloadType at h
  split at h
  · exact typeText_returns h
  · obtain ⟨name, hname, h⟩ := h.of_bind
    split at h
    · rename_i name
      rw [← h.of_pure]
      obtain ⟨ty, _, hty⟩ := Option.bind_eq_some_iff.1 hname.of_ask
      obtain ⟨t, ht, rfl⟩ := exists_of_typeName? hty
      exact .name ht
    · obtain ⟨_, _, h⟩ := h.of_bind
      rw [← h.of_pure]
      exact .unknown

theorem payloadType_holds (a : Expr) (receiverArgs : List Ty) :
    M.Holds C (payloadType a receiverArgs) fun _ _ => True := by
  unfold payloadType
  split
  · exact .conseq (.typeText _) fun _ => trivial
  · refine .ask _ ?_
    split
    · exact .pure fun _ => trivial
    · exact .note_then _ (.pure fun _ => trivial)

theorem code_bytesTrace {target label : String} {f : Field} (ht : M.Piece target w)
    (hf : M.Bare f.name) (hlabel : M.Bare label) : M.Code (bytesTrace target f label) w :=
  ((((M.code.opens rfl).arg ht rfl).arg hf.piece rfl).arg (M.piece.number _) rfl).close
    hlabel.piece rfl

theorem payloadField_holds {target : String} (ht : ∀ {w}, C w → M.Piece target w) {f : Field}
    (hf : M.Bare f.name) {component : Component} (hc : M.Bare component.name)
    (hpays : 32 < f.size → ∀ {x ref l}, env.At component.value x →
      x.fieldRef? = some ref → env.program.packetField ref = .ok l →
        ∀ {buffer w}, M.Piece buffer w → M.Code (extractPacket l l.fieldInstance buffer) w) :
    M.Holds C (payloadField target f component) fun _ _ => True := by
  refine .look fun c hx => ?_
  split
  · refine .traces fun b => ?_
    split
    · exact .hoist fun h => code_bytesTrace (ht h) hf ((M.bare.opens rfl).close hc rfl)
    · exact .pure fun _ => trivial
  · rename_i hsize
    split
    · exact .pure fun _ => trivial
    · rename_i ref href
      refine .look fun l hl => ?_
      have hfield : M.Field l := Manner.packetField hl
      refine .hoist_then (fun h => ?_) (.traces fun b => ?_)
      · refine hpays (Nat.not_le.1 hsize) hx href hl ?_
        exact ((M.piece.opens rfl).arg (ht h) rfl).close hf.piece rfl
      · split
        · exact .hoist fun h => code_bytesTrace (ht h) hf
            (((M.bare.opens rfl).arg hfield.header rfl).close hfield.field rfl)
        · exact .pure fun _ => trivial

include hA hr in
theorem payload_holds (harg : A arg) (hpays : M.Pays arg) (param : Param)
    (hs : ∀ {w}, C w → M.Bare storage) (receiverArgs : List Ty) :
    M.Holds C (payload recur arg param storage receiverArgs) fun _ _ => True := by
  refine .look fun a ha => .after (payloadType_holds ..) fun type htype => ?_
  have htype := typeText_of_payloadType htype
  refine hA.naming.freshThen (M.hint (by decide)) (fun _ => argument_holds hA hr harg param)
    (fun m value _ h => Manner.announcesValue m htype h.1.piece) fun name value => ?_
  refine .after ?_ fun _ _ => .hoist_then (fun h => (((M.code.opens rfl).arg (hs h.2.2).piece
    rfl).arg h.1.piece rfl).close (Manner.Bare.piece (M.texts (.type htype))) rfl)
    (.pure fun _ => trivial)
  unfold payloadMembers
  split
  · rename_i id components hty hnode
    refine .look fun d hd => .forM fun q hq => ?_
    obtain ⟨hfield, hcomponent⟩ := List.of_mem_zip hq
    exact payloadField_holds (fun h => h.1.piece)
      (M.names (.field (Program.mem_of_lookup hd) hfield))
      (M.names (.component (Program.mem_of_expr ha) hnode hcomponent))
      (hpays ha hty hnode hd q hq)
  · exact .pure fun _ => trivial

/-! ### External objects -/

theorem receiverOwner_holds (path : Path) :
    M.Holds C (receiverOwner path) fun owner _ => Opening M.lined M.Bare M.Bare owner := by
  unfold receiverOwner
  split
  · exact .pure fun _ => M.bare.opens rfl
  · refine .isLocal _ fun b => .pure fun _ => ?_
    split
    · exact M.bare.opens rfl
    · exact M.bare.opens rfl

/-- The type of a loaded receiver's payload, and how the receiver is passed. -/
structure Loaded.Written (M : Manner env) (loaded : Loaded) : Prop where
  type : ∀ type, loaded.type = some type → TypeText env.toTypeScope type
  receiver : M.Bare loaded.receiver

include hA hr in
theorem loadReceiver_holds (receiver : Expr) (t : ExternalTarget) (convention : Convention)
    {storage : String} (hs : ∀ {w}, C w → M.Bare storage) {args : List (ExprId × Param)}
    (hargs : ∀ q ∈ args, A q.1)
    (hpays : ∀ {base tys q rest}, receiver.ty = .specialized base tys → args = q :: rest →
      M.Pays q.1) :
    M.Holds C (loadReceiver recur receiver t convention storage args) fun loaded _ =>
      loaded.Written M := by
  unfold loadReceiver
  split
  · rename_i base tys hty
    unfold loadSpecialized
    split
    · exact .pure fun h => ⟨nofun, hs h⟩
    · rename_i arg param rest
      refine .after (payload_holds hA hr (hargs _ (.head rest)) (hpays hty rfl) param hs _)
        fun type htype => .pure fun h => ⟨fun _ heq => ?_, (M.bare.opens rfl).close (hs h) rfl⟩
      obtain ⟨a, -, htype⟩ := exists_payloadType htype
      exact Option.some.inj heq ▸ typeText_of_payloadType htype
  · unfold loadPlain
    split
    · exact .pure fun h => ⟨nofun, hs h⟩
    · refine .look fun _ _ => .bind (.typeText _) fun type htype => .pure fun h => ⟨?_, hs h.2⟩
      exact fun _ heq => Option.some.inj heq ▸ typeText_returns htype
    · split
      · exact .throw
      · exact .pure fun h => ⟨nofun, hs h⟩

theorem typeTexts_of_mapM {α : Type} {ty : α → Ty} {l : List α} {types : List String}
    (h : Returns env (l.mapM fun a => typeText (ty a)) types) :
    ∀ text ∈ types, TypeText env.toTypeScope text := by
  intro text htext
  obtain ⟨_, _, hret⟩ := h.of_mapM text htext
  exact typeText_returns hret

theorem types_of_versionSuffix {t : ExternalTarget} {convention : Convention}
    {bindings : List (String × Ty)} {suffix : String}
    (h : Returns env (versionSuffix t convention bindings) suffix) :
    ∃ types : List String, (∀ text ∈ types, TypeText env.toTypeScope text) ∧
      suffix = String.join (types.map fun ty => "_" ++ ty) := by
  unfold versionSuffix at h
  split at h
  · obtain ⟨types, htypes, h⟩ := h.of_bind
    exact ⟨types, typeTexts_of_mapM htypes, h.of_pure.symm⟩
  · exact ⟨[], nofun, h.of_pure.symm⟩

theorem versionSuffix_holds (t : ExternalTarget) (convention : Convention)
    (bindings : List (String × Ty)) :
    M.Holds C (versionSuffix t convention bindings) fun _ _ => True := by
  unfold versionSuffix
  split
  · exact .bind (.mapM fun _ _ => .typeText _) fun _ _ => .pure fun _ => trivial
  · exact .pure fun _ => trivial

theorem storageOf_holds (arg : ExprId) {owner : String}
    (h : ∀ {w}, C w → Opening M.lined M.Bare M.Bare owner) :
    M.Holds C (storageOf arg owner) fun storage _ => M.Bare storage := by
  refine .look fun a ha => ?_
  have hmem := Program.mem_of_expr ha
  split
  · rename_i path hnode
    exact .pure fun hC => (h hC).last (M.names (.path hmem hnode))
  · rename_i m hnode
    exact .pure fun hC => (h hC).last (M.names (.member hmem hnode))
  · exact .note_then _ (.pure fun _ => M.bare.empty)

/-- The storage that is passed unasked is passed by its address. -/
theorem implicitArgs_cases (owner method : String) :
    (Convention.of owner method).implicitArgs = [] ∨
      (Convention.of owner method).implicitArgs = ["&(\x7b\x7d)"] := by
  unfold Convention.of
  split
  all_goals first | exact .inl rfl | exact .inr rfl

theorem fillStorage_address (storage : String) :
    Convention.fillStorage storage "&(\x7b\x7d)" = "&(" ++ storage ++ ")" := by
  have hchars : Text.replaceChars ['\x7b', '\x7d'] storage.toList 0
      ['&', '(', '\x7b', '\x7d', ')'] = '&' :: '(' :: (storage.toList ++ [')']) := rfl
  rw [← String.toList_inj, Convention.fillStorage, Text.replace, String.toList_ofList]
  simpa using hchars

theorem implicitArgs_holds (type method : String) {owner : String}
    (howner : ∀ {w}, C w → Opening M.lined M.Bare M.Bare owner) (hs : ∀ {w}, C w → M.Bare storage)
    (args : List ExprId) :
    M.Holds C (implicitArgs (.of type method) owner storage args) fun texts _ =>
      ∀ text ∈ texts, M.Bare text := by
  have hfill : ∀ {storage}, M.Bare storage → ∀ text ∈ (Convention.of type method).implicitArgs.map
      (Convention.fillStorage storage), M.Bare text := by
    intro storage hs text htext
    obtain ⟨template, htemplate, rfl⟩ := List.mem_map.1 htext
    rcases implicitArgs_cases type method with h | h <;> rw [h] at htemplate
    · cases htemplate
    · rw [List.mem_singleton.1 htemplate, fillStorage_address]
      exact (M.bare.opens rfl).close hs rfl
  unfold implicitArgs
  split
  · exact .pure fun _ => nofun
  · dsimp only
    split
    · exact .pure fun h => hfill (hs h)
    · exact .bind (storageOf_holds _ howner) fun _ _ => .pure fun h => hfill h.1

theorem prototypeTypes_holds {t : ExternalTarget} (ht : t.decl ∈ env.program.typeDecls)
    (hsignature : t.signature ∈ t.decl.methods) (bindings : List (String × Ty))
    {payloadType : Option String}
    (hpayload : ∀ {w}, C w → ∀ type, payloadType = some type → TypeText env.toTypeScope type) :
    M.Holds C (prototypeTypes t (.of t.decl.name t.signature.name) bindings payloadType)
      fun types _ => ∀ type ∈ types, M.Bare type := by
  refine .bind (.mapM fun _ _ => .typeText _) fun declared hdeclared => ?_
  have hall : ∀ {w}, C w → ∀ text ∈ payloadType.toList ++ declared,
      TypeText env.toTypeScope text := by
    intro w hC text htext
    rcases List.mem_append.1 htext with htext | htext
    · exact hpayload hC text (Option.mem_toList.1 htext)
    · exact typeTexts_of_mapM hdeclared text htext
  dsimp only
  split
  · exact .pure fun h text htext => M.texts (.type (hall h.2 text htext))
  · rename_i templates htemplates
    refine .pure fun h text htext => ?_
    obtain ⟨template, htemplate, rfl⟩ := List.mem_map.1 htext
    exact M.texts (.parameter ht hsignature htemplates htemplate (hall h.2))

theorem code_prototype {returnType function : String} {types : List String}
    (hreturn : M.Bare returnType) (hfunction : M.Bare function)
    (htypes : ∀ type ∈ types, M.Bare type) : M.Code (prototype returnType function types) w :=
  Manner.Bare.code ((((M.bare.opens rfl).arg hreturn rfl).arg hfunction rfl).close
    (M.bare.intercalate rfl htypes) rfl)

/-- A call of a function, with its arguments. -/
theorem text_call {function : String} (hfunction : M.Bare function) {args : List String}
    (hargs : ∀ a ∈ args, M.Part a w) : M.Text s!"{function}({commaList args})" w :=
  (M.text.start hfunction.text rfl).close (M.part.intercalate rfl hargs) rfl

include hA hr in
theorem callExternal_holds {call : Call} (hargs : ∀ a ∈ call.args, A a) {receiver : Expr}
    (he : receiver ∈ env.program.exprs)
    (hpays : ∀ {base tys arg}, receiver.ty = .specialized base tys →
      call.args.head? = some arg → M.Pays arg) (method : String) :
    M.Holds C (callExternal recur call method receiver) M.Text := by
  refine .resolve fun t ht => ?_
  obtain ⟨hdecl, hsignature, rfl, hpath⟩ := found_of_externalTarget ht
  have hname : M.Bare t.path.name := M.names (.path he hpath)
  have hzip : ∀ q ∈ call.args.zip t.signature.params, A q.1 := fun q hq =>
    hargs _ (List.of_mem_zip hq).1
  refine .bind (receiverOwner_holds _) fun owner _ => ?_
  refine .bind (loadReceiver_holds hA hr _ _ _ (fun h => h.1.last hname) hzip fun hty hfirst =>
    hpays hty ?_) fun loaded hloaded => ?_
  · cases hargs : call.args with
    | nil => rw [hargs] at hfirst; cases hfirst
    | cons arg rest =>
      cases hparams : t.signature.params with
      | nil => rw [hargs, hparams] at hfirst; cases hfirst
      | cons param params => rw [hargs, hparams] at hfirst; cases hfirst; rfl
  have hrest := args_of_loadReceiver hloaded
  refine .after (versionSuffix_holds ..) fun suffix hsuffix => ?_
  obtain ⟨types, htypes, rfl⟩ := types_of_versionSuffix hsuffix
  have hfunction := M.texts (.function hdecl hsignature htypes)
  refine .bind (implicitArgs_holds _ _ (fun h => h.2.1) (fun h => h.2.1.last hname) _)
    fun implicit _ => ?_
  refine .bind (prototypeTypes_holds hdecl hsignature _ fun h => h.2.1.type) fun paramTypes _ => ?_
  refine .bind (.mapM fun q hq => argument_holds hA hr (hzip q (hrest q hq)) _) fun args _ => ?_
  refine .bind (.typeText _) fun returnType _ => ?_
  refine .hoist_then (fun ⟨hreturn, _, htypes, _⟩ => code_prototype hreturn hfunction htypes) ?_
  refine .pure fun ⟨_, hargs, _, himplicit, hloaded, _⟩ => text_call hfunction ?_
  refine List.forall_mem_append.2 ⟨List.forall_mem_cons.2 ⟨hloaded.receiver.part, ?_⟩, ?_⟩
  · exact fun a ha => (himplicit a ha).part
  · exact fun a ha => (hargs a ha).part

/-! ### Digests -/

mutual

/-- The only names in the text of a type are those of type parameters. -/
theorem bare_tyText : ∀ ty : Ty, (∀ x ∈ ty.sayings, M.Bare x) → M.Bare ty.text
  | .void, _ | .bool, _ | .infInt, _ | .string, _ | .name _, _ | .external _, _ | .struct _, _
  | .header _, _ | .enum _, _ | .error _, _ | .specialized .., _ => by
    simp only [Ty.text, Ty.shapeName]
    exact M.bare.fixed rfl
  | .bits w signed, _ => by
    rw [Ty.text]
    split
    · exact (M.bare.opens rfl).close (M.bare.number _) rfl
    · exact (M.bare.opens rfl).close (M.bare.number _) rfl
  | .varbits w, _ => by
    rw [Ty.text]
    exact (M.bare.opens rfl).close (M.bare.number _) rfl
  | .var x, h => h x (.head _)
  | .tuple items, h => by
    rw [Ty.text]
    exact (M.bare.opens rfl).close (M.bare.intercalate rfl (bare_tyTexts items h)) rfl

theorem bare_tyTexts : ∀ tys : List Ty,
    (∀ x ∈ Ty.sayingsOf tys, M.Bare x) → ∀ text ∈ Ty.texts tys, M.Bare text
  | [], _ => nofun
  | ty :: rest, h => by
    rw [Ty.texts, List.forall_mem_cons]
    refine ⟨bare_tyText ty fun x hx => ?_, bare_tyTexts rest fun x hx => ?_⟩
    · exact h x (List.mem_append_left _ hx)
    · exact h x (List.mem_append_right _ hx)

end

theorem bare_digestName (he : e ∈ env.program.exprs) (hnode : e.node = .call call) {name : String}
    (h : Digest.typeName env.program call.typeArgs = .ok name) : M.Bare name := by
  unfold Digest.typeName at h
  split at h
  · cases h
  · rename_i ty rest htypes
    cases h
    cases hname : env.program.typeName? ty with
    | none =>
      refine bare_tyText ty fun x hx => M.names ?_
      exact .typeArg he hnode (htypes ▸ .head rest) hx
    | some name =>
      obtain ⟨t, ht, rfl⟩ := exists_of_typeName? hname
      exact M.names (.type ht)

/-- What a digest is written with, besides its receiver. -/
structure Digest.Written (M : Manner env) (d : Digest) : Prop where
  name : M.Bare d.name
  fields : ∀ f ∈ d.fields, M.Field f

theorem packetFields_holds (items : List ExprId) :
    M.Holds C (Digest.packetFields items) fun _ _ => True := by
  induction items generalizing C with
  | nil => exact .pure fun _ => trivial
  | cons item rest ih =>
    refine .look fun e _ => ?_
    split
    · exact .look fun f _ => .after ih fun _ _ => .pure fun _ => trivial
    · exact .note_then _ ih

theorem fields_of_packetFields {items : List ExprId} {fields : List PacketField}
    (h : Returns env (Digest.packetFields items) fields) :
    fields = sentFields env.program items := by
  induction items generalizing fields with
  | nil => exact h.of_pure.symm
  | cons item rest ih =>
    obtain ⟨e, he, h⟩ := h.of_bind
    have he := he.of_look
    split at h
    · rename_i ref href
      obtain ⟨f, hf, h⟩ := h.of_bind
      obtain ⟨others, hothers, h⟩ := h.of_bind
      rw [← h.of_pure, ih hothers]
      simp [sentFields, he, href, hf.of_look, Except.toOption]
    · rename_i href
      obtain ⟨_, _, h⟩ := h.of_bind
      rw [ih h]
      simp [sentFields, he, href, Except.toOption]

theorem ok_of_toOption {ε α : Type} {x : Except ε α} {a : α} (h : x.toOption = some a) :
    x = .ok a := by
  cases x with
  | error e => cases h
  | ok b => cases h; rfl

theorem packetField_of_sentFields {p : Program} {items : List ExprId} {f : PacketField}
    (hf : f ∈ sentFields p items) : ∃ ref, p.packetField ref = .ok f := by
  obtain ⟨item, _, hf⟩ := List.mem_filterMap.1 hf
  obtain ⟨e, _, hf⟩ := Option.bind_eq_some_iff.1 hf
  obtain ⟨ref, _, hf⟩ := Option.bind_eq_some_iff.1 hf
  exact ⟨ref, ok_of_toOption hf⟩

/-- What a digest is made of is read off the call. -/
structure Digest.Found (p : Program) (call : Call) (d : Digest) : Prop where
  name : Digest.typeName p call.typeArgs = .ok d.name
  fields : ∃ args items, Digest.arguments call.args = .ok args ∧
    Digest.items p args.2 = .ok items ∧ d.fields = sentFields p items

theorem args_of_arguments {args : List ExprId} {q : ExprId × ExprId}
    (h : Digest.arguments args = .ok q) : args = [q.1, q.2] := by
  unfold Digest.arguments at h
  split at h
  · cases h
    rfl
  · cases h

theorem found_of_ofCall (h : Returns env (Digest.ofCall recur call) d) :
    d.Found env.program call := by
  obtain ⟨name, hname, h⟩ := h.of_bind
  obtain ⟨args, hargs, h⟩ := h.of_bind
  obtain ⟨receiver, _, h⟩ := h.of_bind
  obtain ⟨items, hitems, h⟩ := h.of_bind
  obtain ⟨fields, hfields, h⟩ := h.of_bind
  rw [← h.of_pure]
  exact ⟨hname.of_resolve, args, items, hargs.of_resolve, hitems.of_look,
    fields_of_packetFields hfields⟩

/-- The names in a digest are those of the program. -/
theorem Digest.Found.written (h : d.Found env.program call) (he : e ∈ env.program.exprs)
    (hnode : e.node = .call call) : d.Written M where
  name := bare_digestName he hnode h.name
  fields f hf := by
    obtain ⟨args, items, _, _, hfields⟩ := h.fields
    obtain ⟨ref, hf⟩ := packetField_of_sentFields (hfields ▸ hf)
    exact Manner.packetField hf

include hr in
theorem ofCall_holds (hargs : ∀ {receiver fields}, call.args = [receiver, fields] → A receiver) :
    M.Holds C (Digest.ofCall recur call) fun d w => M.Text d.receiver w := by
  refine .resolve fun name _ => .resolve fun args h => ?_
  refine .bind (hr (hargs (args_of_arguments h)) _) fun receiver _ => .look fun items _ => ?_
  exact .after (packetFields_holds items) fun fields _ => .pure And.left

theorem announce_holds (hd : d.Written M) (h : ∀ {w}, C w → M.Text d.receiver w) :
    M.Holds C d.announce fun _ _ => True := by
  refine .hoist_then (fun _ => M.code.literal (by decide)) (.traces fun b => ?_)
  split
  · refine .hoist_then (fun hC => ?_) (.forM fun f hf => .hoist fun _ => ?_)
    · exact (M.code.opens rfl).last ((M.piece.opens rfl).close (h hC).piece rfl)
    · have hfield := hd.fields f hf
      refine Manner.Bare.code ?_
      exact (((M.bare.opens rfl).arg hfield.fieldInstance rfl).arg (M.bare.number _) rfl).last
        (((M.bare.opens rfl).arg hfield.field rfl).close (M.bare.number _) rfl)
  · exact .pure fun _ => trivial

theorem settle_holds : M.Holds C Digest.settle fun _ _ => True :=
  .config (M.defer fun _ => (M.code.opens rfl).close (M.piece.number _) rfl)

/-- The first line declares the digest, and the others add to it. -/
theorem announces_addition (hd : d.Written M) (m : String) :
    M.Announces m (Text.unlines (Digest.additionLines m d)) w := by
  refine ((Manner.announcesFixed m rfl rfl).arg (fun _ => hd.name.piece) rfl).unlines
    fun line hline hm => ?_
  obtain ⟨f, hf, rfl⟩ := List.mem_map.1 hline
  have hadd := M.piece.opening (M.addition (w := w)) (by decide)
  exact ((hadd.arg hm.piece rfl).arg (hd.fields f hf).fieldInstance.piece rfl).close
    (M.piece.number _) rfl

theorem issue_digest (he : env.At id e) (hnode : e.node = .call call)
    (hd : d.Found env.program call) (m : String) :
    issue env.program "digest" id m = some (Text.unlines (Digest.additionLines m d)) := by
  obtain ⟨hname, args, items, hargs, hitems, hfields⟩ := hd
  rw [issue_of_expr he, if_neg (by decide), if_pos rfl, digestCode, hnode]
  simp [hname, hargs, hitems, Except.toOption, Digest.additionLines, hfields]

include hA hr in
theorem expressionText_holds (he : env.At id e) (hnode : e.node = .call call)
    (hargs : ∀ a ∈ call.args, A a) : M.Holds C (Digest.expressionText recur id call) M.Text := by
  refine .bind (ofCall_holds hr fun h => hargs _ (h ▸ .head _)) fun d hd => ?_
  have hd := found_of_ofCall hd
  have hwritten : d.Written M := hd.written (Program.mem_of_expr he) hnode
  refine hA.naming.nameThen (M.hint (by decide)) (by decide) (fun m _ => issue_digest he hnode hd m)
    (fun _ => announce_holds hwritten And.left) (fun m _ _ _ => announces_addition hwritten m)
    fun m _ => ?_
  refine .after settle_holds fun _ _ => .pure fun h => ?_
  exact ((M.text.opens rfl).arg h.1.part rfl).close h.2.2.1.part rfl

/-! ### Headers, tables and functions -/

theorem text_headerMethod {index : String} (h : M.Part index w) (m : HeaderMethod) :
    M.Text (m.text index) w := by
  cases m with
  | isValid => exact (M.text.opens rfl).close h rfl
  | setValid => exact ((M.text.opens rfl).arg h rfl).last ((M.part.opens rfl).close h rfl)
  | setInvalid => exact (M.text.opens rfl).close h rfl

theorem path_of_appliedTable? {p : Program} {receiver : Expr} {table : String}
    (h : appliedTable? p receiver = some table) :
    ∃ path, receiver.node = .path path ∧ path.name = table := by
  obtain ⟨path, hpath, h⟩ := Option.bind_eq_some_iff.1 h
  obtain ⟨id, _, h⟩ := Option.bind_eq_some_iff.1 h
  refine ⟨path, node_of_path? hpath, ?_⟩
  split at h
  · split at h
    · exact Option.some.inj h
    · cases h
  · cases h

include hA hr in
theorem callMethod_holds {call : Call} {m : Member} (hargs : ∀ a ∈ call.args, A a)
    (hbase : A m.base)
    (hpays : ∀ {receiver base tys arg}, env.At m.base receiver →
      receiver.ty = .specialized base tys → call.args.head? = some arg → M.Pays arg)
    (mode : Mode) : M.Holds C (callMethod recur call m mode) M.Text := by
  refine .look fun receiver hreceiver => .ask _ ?_
  split
  · rename_i method _
    have hid : receiver.id = m.base := hA.wellFormed.id_eq hreceiver
    exact .bind (headerSlot_holds hr (hid ▸ hbase) mode) fun index _ => .pure fun h =>
      text_headerMethod h.1.part method
  · refine .ask _ ?_
    split
    · rename_i table htable
      have htable : appliedTable? env.program receiver = some table := by
        split at htable
        · exact htable
        · cases htable
      obtain ⟨path, hpath, rfl⟩ := path_of_appliedTable? htable
      have hname : M.Bare path.name := M.names (.path (Program.mem_of_expr hreceiver) hpath)
      have happly : Opening M.lined M.Bare M.Bare (path.name ++ "_apply(") :=
        M.bare.opening (hname.longer rfl) (ends_append (by decide))
      exact .pure fun _ => (happly.close (M.bare.fixed rfl) rfl).text
    · split
      · exact .ask _ (unsupported_holds _ _)
      · exact callExternal_holds hA hr hargs (Program.mem_of_expr hreceiver) (hpays hreceiver) _

include hr in
theorem functionArgument_holds (harg : A arg) : M.Holds C (functionArgument recur arg) M.Text := by
  refine .look fun a _ => ?_
  split
  · refine .look fun l hl => .pure fun _ => Manner.Bare.text ?_
    have hfield : M.Field l := Manner.packetField hl
    exact ((M.bare.opens rfl).arg hfield.headerId rfl).close hfield.fieldInstance rfl
  · exact hr harg _

include hr in
theorem functionArguments_holds {args : List (ExprId × Param)} (hargs : ∀ q ∈ args, A q.1) :
    M.Holds C (functionArguments recur args) fun l w =>
      ∀ q ∈ l, M.Part q.1 w ∧ M.Bare q.2 := by
  induction args generalizing C with
  | nil => exact .pure fun _ => nofun
  | cons q rest ih =>
    rw [List.forall_mem_cons] at hargs
    refine .ask _ ?_
    split
    · exact ih hargs.2
    · refine .bind (functionArgument_holds hr hargs.1) fun text _ => ?_
      refine .bind (.typeText _) fun type _ => .bind (ih hargs.2) fun l _ => .pure fun h => ?_
      exact List.forall_mem_cons.2 ⟨⟨h.2.2.1.part, h.2.1⟩, h.1⟩

include hA hr in
theorem callFunction_holds (he : env.At id e) (hnode : e.node = .call call)
    (hargs : ∀ a ∈ call.args, A a) {path : Path} (hpath : M.Bare path.name) :
    M.Holds C (callFunction recur id call path) M.Text := by
  have hparams : M.Bare Target.shortParams := M.bare.fixed rfl
  have hshort : M.Bare Target.shortArgs := M.bare.fixed rfl
  unfold callFunction
  split
  · exact expressionText_holds hA hr he hnode hargs
  · refine .look fun signature _ => ?_
    split
    · split
      · refine .hoist_then (fun _ => ?_) (.pure fun _ => Manner.Bare.text ?_)
        · exact code_prototype (M.bare.fixed rfl) hpath (List.forall_mem_singleton.2 hparams)
        · exact (M.bare.start hpath rfl).close hshort rfl
      · exact .throw
    · refine .bind (functionArguments_holds hr fun q hq => hargs _ (List.of_mem_zip hq).1)
        fun args _ => .bind (.typeText _) fun returnType _ => ?_
      refine .hoist_then (fun ⟨hreturn, hall, _⟩ => code_prototype hreturn hpath ?_)
        (.pure fun ⟨_, hall, _⟩ => text_call hpath ?_)
      · refine List.forall_mem_append.2 ⟨fun type htype => ?_, List.forall_mem_singleton.2 hparams⟩
        obtain ⟨q, hq, rfl⟩ := List.mem_map.1 htype
        exact (hall q hq).2
      · refine List.forall_mem_append.2 ⟨fun text htext => ?_,
          List.forall_mem_singleton.2 hshort.part⟩
        obtain ⟨q, hq, rfl⟩ := List.mem_map.1 htext
        exact (hall q hq).1

/-! ### All expressions -/

include hA hr in
theorem callText_holds (he : env.At id e) (hnode : e.node = .call call) (hid : A id)
    (mode : Mode) : M.Holds C (callText recur id call mode) M.Text := by
  have hargs : ∀ a ∈ call.args, A a := fun a ha => hA.part hid ⟨e, he, hnode ▸ .arg ha⟩
  refine .look fun method hmethod => ?_
  split
  · rename_i m hmember
    have hbase : A m.base := hA.part (hA.part hid ⟨e, he, hnode ▸ .method call⟩)
      ⟨method, hmethod, hmember ▸ .base m⟩
    refine callMethod_holds hA hr hargs hbase (fun hreceiver hty harg => ?_) mode
    exact hA.pays hid he hnode hmethod hmember hreceiver hty harg
  · rename_i path hpath
    refine callFunction_holds hA hr he hnode hargs ?_
    exact M.names (.path (Program.mem_of_expr hmethod) hpath)
  · exact .throw

include hA hr in
theorem nodeText_holds (he : env.At id e) (hid : A id) (mode : Mode) :
    M.Holds C (nodeText recur e mode) M.Text := by
  have heq : e.id = id := hA.wellFormed.id_eq he
  have hmem := Program.mem_of_expr he
  have hpart : ∀ {child}, e.node.Mentions child → A child := fun h => hA.part hid ⟨e, he, h⟩
  unfold nodeText
  cases hnode : e.node with
  | constant value base => exact constant_holds hA.naming (heq ▸ he) hnode
  | bool value => cases value <;> exact .pure fun _ => Manner.Bare.text (M.bare.fixed rfl)
  | str value =>
    exact .pure fun _ => ((M.bare.opens rfl).close (M.names (.str hmem hnode)) rfl).text
  | default => exact .pure fun _ => M.bare.empty.text
  | typeName ty => exact .conseq (.typeText ty) Manner.Bare.text
  | path path => exact pathText_holds (M.names (.path hmem hnode)) mode
  | member m => exact member_holds hA hr he hnode hid mode
  | unary op operand => exact unary_holds hr e op (hpart (hnode ▸ .operand op operand)) mode
  | binary op left right =>
    exact binary_holds hr e op (hpart (hnode ▸ .left op left right))
      (hpart (hnode ▸ .right op left right)) mode
  | mux c t f =>
    exact mux_holds hr (hpart (hnode ▸ .cond c t f)) (hpart (hnode ▸ .ifTrue c t f))
      (hpart (hnode ▸ .ifFalse c t f)) mode
  | slice base hi lo => exact slice_holds hr e (hpart (hnode ▸ .sliced base hi lo)) lo mode
  | concat left right =>
    exact concat_holds hr (hpart (hnode ▸ .upper left right))
      (hpart (hnode ▸ .lower left right)) mode
  | cast dest operand => exact cast_holds hr dest (hpart (hnode ▸ .converted dest operand)) mode
  | list items => exact heq ▸ hA.buffer hid he hnode
  | structInit components =>
    exact structInit_holds hr (hA.struct hid he hnode) e
      (fun c hc => hpart (hnode ▸ .component hc))
      (fun c hc => M.names (.component hmem hnode hc)) mode
  | select keys arms =>
    rw [heq]
    obtain ⟨hlined, hS, hfirst⟩ := hA.select hid he hnode
    refine transition_holds hA hS hr hlined hfirst (fun key hkey => hpart (hnode ▸ .key hkey)) ?_
      fun arm harm => hpart (hnode ▸ .keyset harm)
    exact fun arm harm => M.names (.of_node hmem (hnode ▸ List.mem_map_of_mem harm))
  | mask | range => exact unsupported_holds _ _
  | call c => exact heq ▸ callText_holds hA hr he hnode hid mode

end Parts

theorem exprWithin_holds (hA : M.Admits A) (depth : Nat) : M.Each A (exprWithin depth) := by
  induction depth with
  | zero => exact fun _ _ _ _ => .throw
  | succ depth ih => exact fun _ _ hid mode => .look fun e he => nodeText_holds hA ih he hid mode

theorem expr_holds (hA : M.Admits A) : M.Each A expr := fun _ _ hid mode =>
  .ask _ (exprWithin_holds hA _ hid mode)

end PacketC.Lower
