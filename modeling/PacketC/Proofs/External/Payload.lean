import PacketC.Proofs.External.Passing
import PacketC.Proofs.Scalar.Place

/-! Payloads that are struct initializers. The initializer leaves the components above 32 bits for
later. Behind the declaration of the variable, the fields of the struct and the components are gone
through side by side, and a component that is a field of the packet is extracted into the field of
the struct at its own place. So a deferred component ends up in the member of its own name only if
the places agree, the declared field is above 32 bits too, and the value is a field of the packet;
nothing is reported otherwise. -/

namespace PacketC

open Code Lower

namespace Program

/-- The width of a component that the initializer leaves for later. -/
def deferredWidth? (p : Program) (c : Component) : Option Nat := do
  bufferWidth? (← (p.expr c.value).toOption).ty

/-- The components that the initializer does not leave for later. -/
def initialized (p : Program) (components : List Component) : List Component :=
  components.filter fun c => (p.deferredWidth? c).isNone

end Program

namespace Lower

variable {α : Type} {env : Env} {s u : State} {p : Program} {l : PacketField}

/-! ### The initializer -/

/-- What stands in the initializer for a component that is left for later. -/
def deferral (c : Component) (width : Nat) : String :=
  s!"/* {c.name}/{width}b will be initialised afterwards */"

def initializer (env : Env) (type : String) (lines : List String) : String :=
  ((Layout.empty env.config.indentation).block s!"({type})" fun l => l.linesOf lines).finish

/-- Each component that is left for later has only its mark. -/
abbrev Deferring (p : Program) (components : List Component) (lines : List String) : Prop :=
  List.Forall₂ (fun c line => ∀ width, p.deferredWidth? c = some width → line = deferral c width)
    components lines

variable {c : Component} {e : Expr} {id : TypeId}

theorem deferredWidth?_of_ok (he : p.At c.value e) :
    p.deferredWidth? c = bufferWidth? e.ty := by
  rw [Program.deferredWidth?, he]
  rfl

section Lines

variable {recur : Recur} {mode : Mode} {components : List Component} {c : Component} {e : Expr}

theorem structLines_of_deferred (he : env.At c.value e) {width : Nat}
    (hw : bufferWidth? e.ty = some width) :
    structLines recur mode (c :: components) env = (do
      let lines ← structLines recur mode components
      return deferral c width :: lines) env := by
  rw [structLines, bind_of_pure (look_of_ok he), hw]
  rfl

theorem structLines_of_narrow (he : env.At c.value e)
    (hw : bufferWidth? e.ty = none) :
    structLines recur mode (c :: components) env = (do
      let value ← recur c.value mode.child
      let lines ← structLines recur mode components
      return s!".{c.name} = {value}," :: lines) env := by
  rw [structLines, bind_of_pure (look_of_ok he), hw]
  rfl

/-- What is left for later has no effect on the lowering of the rest. -/
theorem exists_of_structLines
    (hvalues : ∀ c ∈ components, ∃ e, env.At c.value e) {lines : List String}
    (h : structLines recur mode components env s = (.ok lines, u)) :
    (∃ rest, structLines recur mode (env.program.initialized components) env s = (.ok rest, u)) ∧
      Deferring env.program components lines := by
  induction components generalizing s lines with
  | nil =>
    cases h
    exact ⟨⟨_, rfl⟩, .nil⟩
  | cons c components ih =>
    obtain ⟨e, he⟩ := hvalues c (.head components)
    have hrest : ∀ c ∈ components, _ := fun c hc => hvalues c (.tail _ hc)
    have hwidth := deferredWidth?_of_ok he
    cases hw : bufferWidth? e.ty with
    | some width =>
      rw [structLines_of_deferred he hw] at h
      obtain ⟨more, s₁, hmore, h⟩ := exists_of_bind h
      cases h
      obtain ⟨hkept, hlines⟩ := ih hrest hmore
      rw [hw] at hwidth
      have hskip : env.program.initialized (c :: components) = env.program.initialized components :=
        List.filter_cons_of_neg (by simp [hwidth])
      rw [hskip]
      refine ⟨hkept, .cons (fun w hw => ?_) hlines⟩
      rw [hwidth] at hw
      cases hw
      rfl
    | none =>
      rw [structLines_of_narrow he hw] at h
      obtain ⟨value, s₁, hvalue, h⟩ := exists_of_bind h
      obtain ⟨more, s₂, hmore, h⟩ := exists_of_bind h
      cases h
      obtain ⟨⟨kept, hkept⟩, hlines⟩ := ih hrest hmore
      rw [hw] at hwidth
      have hkeep : env.program.initialized (c :: components) =
          c :: env.program.initialized components := List.filter_cons_of_pos (by simp [hwidth])
      rw [hkeep, structLines_of_narrow he hw]
      refine ⟨⟨s!".{c.name} = {value}," :: kept, ?_⟩, .cons (fun w hw => ?_) hlines⟩
      · rw [run_bind, hvalue]
        dsimp only
        rw [run_bind, hkept]
        rfl
      · rw [hwidth] at hw
        cases hw

end Lines

/-- The text of a declared struct is found without a note. -/
theorem typeText_of_struct {ty : Ty} (hty : ty = .struct id) {d : TypeDecl}
    (hd : env.program.typeDecl id = .ok d) :
    typeText ty env = (pure (env.typeText ty) : LowerM String) env := by
  have hnotes : (ty.render env.toTypeScope .parameter).notes = [] := by
    rw [hty, Ty.render, hd]
    rfl
  have hkept : note (ty.render env.toTypeScope .parameter).notes env =
      (pure () : LowerM Unit) env := by
    funext s
    rw [hnotes]
    exact congrArg (fun ds => (Except.ok (), State.mk ⟨_, _, ds⟩ s.emission)) (List.append_nil _)
  exact bind_of_pure (f := fun _ => pure (env.typeText ty)) hkept

theorem exists_of_initializer (wf : env.program.WellFormed) {arg : ExprId} {a : Expr}
    (ha : env.At arg a) (hty : a.ty = .struct id) {d : TypeDecl}
    (hd : env.program.typeDecl id = .ok d) {components : List Component}
    (hinit : a.node = .structInit components) {param : Param} {value : String}
    (h : argument expr arg param env s = (.ok value, u)) :
    ∃ (address : String) (lines : List String),
      value = address ++ initializer env (env.typeText a.ty) lines ∧
      Deferring env.program components lines ∧
      ∃ rest, structLines expr .expanded (env.program.initialized components) env s =
        (.ok rest, u) := by
  have href : a.fieldRef? = none := by simp [Expr.fieldRef?, Expr.member?, hinit]
  have hnode : expr arg .expanded env = structInit expr a components .expanded env := by
    rw [expr_eq_nodeText wf ha, nodeText, hinit]
  unfold argument at h
  rw [bind_of_pure (look_of_ok ha), href, ite_self] at h
  obtain ⟨text, s₁, htext, h⟩ := exists_of_bind h
  cases h
  rw [hnode] at htext
  unfold structInit at htext
  rw [bind_of_pure (typeText_of_struct hty hd)] at htext
  obtain ⟨lines, s₂, hlines, htext⟩ := exists_of_bind htext
  cases htext
  have hvalues : ∀ c ∈ components, ∃ e, env.At c.value e := fun c hc =>
    wf.exists_part ha (hinit ▸ .component hc)
  obtain ⟨hrest, hdeferring⟩ := exists_of_structLines hvalues hlines
  exact ⟨_, lines, rfl, hdeferring, hrest⟩

/-! ### Behind the declaration -/

theorem exists_of_struct_payload (wf : env.program.WellFormed) {arg : ExprId} {a : Expr}
    (ha : env.At arg a) (hty : a.ty = .struct id) {components : List Component}
    (hinit : a.node = .structInit components) {param : Param} {storage type : String}
    {receiverArgs : List Ty}
    (h : payload expr arg param storage receiverArgs env s = (.ok type, u)) :
    ∃ (d : TypeDecl) (var value : String) (s₁ s₂ : State),
      env.program.typeDecl id = .ok d ∧ freshName "var" env s = (.ok var, s₁) ∧
      argument expr arg param env s₁ = (.ok value, s₂) ∧
      u = ⟨s₂.memory, s₂.emission.add (payloadPieces (env.typeText a.ty) var value storage
        (payloadCodes env var d.fields components)) []⟩ := by
  obtain ⟨d, hd⟩ : ∃ d, env.program.typeDecl id = .ok d :=
    wf.exists_typeDecl (.expr (Program.mem_of_expr ha)) (hty ▸ .struct id)
  have hpayload : payloadType a receiverArgs env =
      (pure (env.typeText a.ty) : LowerM String) env := by
    rw [← typeText_of_struct hty hd]
    simp [payloadType, hty, payloadType.isStruct]
  obtain ⟨s₀, var, s₁, value, s₂, htype, hvar, hvalue, rfl⟩ := exists_of_payload wf ha h
  rw [hpayload] at htype
  obtain ⟨hused, rfl⟩ := Prod.mk.inj htype
  have hcodes : memberCodes env var a = payloadCodes env var d.fields components := by
    unfold memberCodes
    rw [hty, hinit]
    dsimp only
    rw [hd]
  rw [← Except.ok.inj hused, hcodes]
  exact ⟨d, var, value, s₁, s₂, hd, hvar, hvalue, rfl⟩

/-! ### What is extracted -/

theorem extraction_text (var m : String) (l : PacketField) : extraction var l m =
    "EXTRACT_BYTEBUF_PACKET(pd, " ++ (l.headerId ++ (", " ++ (l.fieldInstance ++
      (", &(" ++ (var ++ ("." ++ (m ++ "));"))))))) := by
  have hmid : ", &(" = ", " ++ "&(" := rfl
  have hclose : "));" = ")" ++ ");" := rfl
  have hbuffer : extraction var l m = "EXTRACT_BYTEBUF_PACKET(pd, " ++ l.headerId ++ ", " ++
      l.fieldInstance ++ ", " ++ ("&(" ++ var ++ "." ++ m ++ ")") ++ ");" := rfl
  rw [hbuffer, hmid, hclose]
  simp only [String.append_assoc]

theorem extraction_inj {var m m' : String} {l' : PacketField}
    (hl : IsWord l.headerId ∧ IsWord l.fieldInstance)
    (hl' : IsWord l'.headerId ∧ IsWord l'.fieldInstance)
    (h : extraction var l m = extraction var l' m') :
    l.headerId = l'.headerId ∧ l.fieldInstance = l'.fieldInstance ∧ m = m' := by
  rw [extraction_text, extraction_text, String.append_right_inj] at h
  have hcomma : ∀ x, starts isMark (", " ++ x) = true := fun _ => starts_append (by decide)
  have hbuffer : ∀ x, starts isMark (", &(" ++ x) = true := fun _ => starts_append (by decide)
  obtain ⟨hid, h⟩ := append_inj_of_all hl.1.chars hl'.1.chars (hcomma _) (hcomma _) h
  rw [String.append_right_inj] at h
  obtain ⟨hinstance, h⟩ := append_inj_of_all hl.2.chars hl'.2.chars (hbuffer _) (hbuffer _) h
  rw [String.append_right_inj, String.append_right_inj, String.append_right_inj,
    String.append_left_inj] at h
  exact ⟨hid, hinstance, h⟩

theorem isWord_of_packetField (hn : p.PlainNames) {ref : FieldRef} (h : p.packetField ref = .ok l) :
    IsWord l.headerId ∧ IsWord l.fieldInstance := by
  obtain ⟨i, t, f, hi, ht, hf, rfl⟩ := Lower.exists_of_packetField h
  have hheader := (hn.headers i (Program.mem_of_lookup hi)).toIsWord
  have hfield := (hn.fields t (Program.mem_of_lookup ht) f hf).toIsWord
  have hmark : IsWord "field_instance_" := by decide
  have hbar : "_".toList.all isWordChar = true := by decide
  refine ⟨?_, ((hmark.append hheader.chars).append hbar).append hfield.chars⟩
  dsimp only
  split
  · decide
  · exact (label_headerInstance hheader).toIsWord

theorem isWord_of_componentField (hn : p.PlainNames) (h : p.componentField? c = some l) :
    IsWord l.headerId ∧ IsWord l.fieldInstance := by
  simp only [Program.componentField?, Program.fieldOf?, Option.bind_eq_bind,
    Option.bind_eq_some_iff] at h
  obtain ⟨e, -, ref, -, hl⟩ := h
  cases hr : p.packetField ref with
  | error e => rw [hr] at hl; cases hl
  | ok l' =>
    rw [hr] at hl
    cases hl
    exact isWord_of_packetField hn hr

/-- No trace is an extraction. -/
theorem extraction_ne_trace (var m : String) (l : PacketField) (f : Field) (label : String) :
    extraction var l m ≠ bytesTrace var f label := by
  refine ne_of_starts (p := (· == 'E')) (q := (· == 'd')) ?_ ?_ (by simp)
  · rw [extraction_text]
    exact starts_append (by decide)
  · iterate 8 apply starts_append
    decide

end Lower

theorem Emission.foldl_addOnce_of_new {pieces pre : List String}
    (hnew : ∀ piece ∈ pieces, piece ∉ pre) (hnodup : pieces.Nodup) :
    pieces.foldl addOnce pre = pre ++ pieces := by
  induction pieces generalizing pre with
  | nil => simp
  | cons piece pieces ih =>
    obtain ⟨hpiece, hnodup⟩ := List.nodup_cons.1 hnodup
    have hone : addOnce pre piece = pre ++ [piece] := by simp [addOnce, hnew]
    rw [List.foldl_cons, hone, ih ?_ hnodup, List.append_assoc, List.singleton_append]
    intro other hother hmem
    rcases List.mem_append.1 hmem with hmem | hmem
    · exact hnew other (.tail _ hother) hmem
    · exact hpiece (List.mem_singleton.1 hmem ▸ hother)

/-- The member of the component's own name is filled with the component: at the place of the member
stands the same field of the packet, and the declared field is above 32 bits. -/
def Program.Fills (p : Program) (fields : List Field) (components : List Component)
    (c : Component) : Prop :=
  ∃ l, p.componentField? c = some l ∧ ∃ q ∈ fields.zip components, q.1.name = c.name ∧
    32 < q.1.size ∧ ∃ l', p.componentField? q.2 = some l' ∧ l'.headerId = l.headerId ∧
      l'.fieldInstance = l.fieldInstance

namespace Lower

variable {env : Env} {s u : State}

theorem extraction_mem_payloadCode {var m : String} {l : PacketField} {q : Field × Component} :
    extraction var l m ∈ payloadCode env var q ↔ 32 < q.1.size ∧
      ∃ l', env.program.componentField? q.2 = some l' ∧
        extraction var l m = extraction var l' q.1.name := by
  have htrace : ∀ label, extraction var l m ∉
      if env.config.emitDebugTraces then [bytesTrace var q.1 label] else [] := by
    intro label
    split
    · exact fun h => extraction_ne_trace _ _ _ _ _ (List.mem_singleton.1 h)
    · exact List.not_mem_nil
  unfold payloadCode
  dsimp only
  by_cases hsize : q.1.size ≤ 32
  · rw [if_pos hsize]
    exact iff_of_false (htrace _) fun h => absurd hsize (Nat.not_le.2 h.1)
  · rw [if_neg hsize]
    cases hl : env.program.componentField? q.2 with
    | none => exact iff_of_false List.not_mem_nil (by simp)
    | some l' =>
      rw [List.mem_cons, or_iff_left (htrace _)]
      exact ⟨fun h => ⟨Nat.not_le.1 hsize, l', rfl, h⟩, by rintro ⟨-, _, ⟨⟩, h⟩; exact h⟩

theorem extracted_iff_fills (hn : env.program.PlainNames) {var : String} {fields : List Field}
    {components : List Component} {c : Component} :
    (∃ l, env.program.componentField? c = some l ∧
        extraction var l c.name ∈ payloadCodes env var fields components) ↔
      env.program.Fills fields components c := by
  refine exists_congr fun l => and_congr_right fun hl => ?_
  unfold payloadCodes
  rw [List.mem_flatMap]
  refine exists_congr fun q => and_congr_right fun _ => ?_
  rw [extraction_mem_payloadCode]
  have hwords := isWord_of_componentField hn hl
  constructor
  · rintro ⟨hsize, l', hl', htext⟩
    obtain ⟨hid, hinstance, hname⟩ :=
      extraction_inj hwords (isWord_of_componentField hn hl') htext
    exact ⟨hname.symm, hsize, l', hl', hid.symm, hinstance.symm⟩
  · rintro ⟨hname, hsize, l', hl', hid, hinstance⟩
    refine ⟨hsize, l', hl', ?_⟩
    rw [extraction_text, extraction_text, hname, hid, hinstance]

/-! ### The call -/

theorem exists_of_specialized {receiver : Expr} (hspecial : receiver.ty.isSpecialized = true)
    {t : ExternalTarget} {convention : Convention} {storage : String} {arg : ExprId} {param : Param}
    {rest : List (ExprId × Param)} {loaded : Loaded}
    (h : loadReceiver expr receiver t convention storage ((arg, param) :: rest) env s =
      (.ok loaded, u)) :
    ∃ type, payload expr arg param storage t.receiverArgs env s = (.ok type, u) := by
  rw [loadReceiver_eq, if_pos hspecial] at h
  obtain ⟨type, _, hpayload, hlast⟩ := exists_of_bind h
  obtain ⟨-, rfl⟩ := Prod.mk.inj hlast
  exact ⟨type, hpayload⟩

theorem arguments_grow {pairs : List (ExprId × Param)} {texts : List String}
    (h : (pairs.mapM fun q => argument expr q.1 q.2) env s = (.ok texts, u)) :
    s.emission.Grows u.emission := by
  have hgrows := (arguments_inStep env pairs).confined (fun id _ mode => expr_confined id mode) s
  rw [h] at hgrows
  exact hgrows

/-- A call on a specialized receiver whose first argument is a struct initializer puts three things
in front of the statement: the declaration of a variable with the initializer, the code for the
members, and the copy of the variable into the storage of the receiver. A component above 32 bits is
only a mark in the initializer, and the lowering of the initializer ends as if it were not there.
The code for the members reports nothing. It extracts the component into the member of its own name
if and only if the component is filled in at the place of that member. -/
theorem deferred_extracted_iff (p : Program) (hv : p.validate = .ok ()) (id : ExprId) (e : Expr)
    (he : p.expr id = .ok e) (call : Call) (hnode : e.node = .call call) (receiver : Expr)
    (t : ExternalTarget) (hcalls : p.CallsExternal call receiver t)
    (hspecial : receiver.ty.isSpecialized = true) (arg : ExprId) (param : Param)
    (rest : List (ExprId × Param)) (hpairs : t.pairs call = (arg, param) :: rest) (a : Expr)
    (ha : p.expr arg = .ok a) (sid : TypeId) (hty : a.ty = .struct sid)
    (components : List Component) (hinit : a.node = .structInit components) (env : Env)
    (henv : env.program = p) (mode : Mode) (s u : State) (text : String)
    (hrun : expr id mode env s = (.ok text, u)) :
    ∃ (d : TypeDecl) (var address : String) (lines : List String) (s₁ s₂ : State),
      let type := env.typeText a.ty
      let codes := payloadCodes env var d.fields components
      let pieces := payloadPieces type var (address ++ initializer env type lines)
        (env.storage t.path) codes
      p.typeDecl sid = .ok d ∧ freshName "var" env s = (.ok var, s₁) ∧
      Deferring p components lines ∧
      (∃ kept, structLines expr .expanded (p.initialized components) env s₁ = (.ok kept, s₂)) ∧
      loadReceiver expr receiver t t.convention (env.storage t.path) (t.pairs call) env s =
        (.ok (t.loaded env receiver (t.pairs call)), ⟨s₂.memory, s₂.emission.add pieces []⟩) ∧
      (s₂.emission.add pieces []).Grows u.emission ∧
      ((∀ piece ∈ pieces, piece ∉ s₂.emission.current.pre) → pieces.Nodup →
        s₂.emission.current.pre ++ pieces <+: u.emission.current.pre) ∧
      (p.PlainNames → ∀ c ∈ components, ∀ width, p.deferredWidth? c = some width →
        ((∃ l, p.componentField? c = some l ∧ extraction var l c.name ∈ codes) ↔
          p.Fills d.fields components c)) := by
  have wf := Program.WellFormed.of_validate hv
  subst henv
  have hargs : ∀ a ∈ call.args, ∃ x, env.At a x := fun a ha =>
    wf.exists_part he (hnode ▸ .arg ha)
  rw [expr_of_callsExternal wf he hnode hcalls] at hrun
  obtain ⟨s₃, ds, s₄, es, texts, hload, htexts, rfl, rfl⟩ :=
    exists_of_callExternal hcalls.target hargs hrun
  obtain ⟨type, hpayload⟩ := exists_of_specialized hspecial (hpairs ▸ hload)
  obtain ⟨d, var, value, s₁, s₂, hd, hvar, hvalue, rfl⟩ :=
    exists_of_struct_payload wf ha hty hinit hpayload
  obtain ⟨address, lines, rfl, hlines, hkept⟩ :=
    exists_of_initializer wf ha hty hd hinit hvalue
  have hgrows : (s₂.emission.add (payloadPieces (env.typeText a.ty) var
      (address ++ initializer env (env.typeText a.ty) lines) (env.storage t.path)
      (payloadCodes env var d.fields components)) []).Grows
      (s₄.emission.prepend (t.prototype env call receiver)) :=
    (arguments_grow htexts).trans (.prepend _ _)
  refine ⟨d, var, address, lines, s₁, s₂, hd, hvar, hlines, hkept, hload, hgrows,
    fun hnew hnodup => ?_, fun hn c _ _ _ => extracted_iff_fills hn⟩
  have hpre := hgrows.pre
  rw [Emission.add, Emission.foldl_addOnce_of_new hnew hnodup] at hpre
  exact hpre

/-- A cell of pairs is written twice: with a field and a constant, and with two fields whose names
are not in the declared order. -/
def stampedPairs : Program where
  exprs := #[.packet, .packetHeader, .packetField 2 (.bits 48 false) "f" 0,
    .packetField 3 (.bits 48 false) "g" 1, .number 4 48 7,
    ⟨⟨5⟩, .struct ⟨1⟩, .structInit [⟨"a", ⟨2⟩⟩, ⟨"b", ⟨4⟩⟩]⟩,
    ⟨⟨6⟩, .struct ⟨1⟩, .structInit [⟨"b", ⟨2⟩⟩, ⟨"a", ⟨3⟩⟩]⟩,
    .declared 7 (.specialized ⟨2⟩ [.struct ⟨1⟩]) "c" 0, .method 8 "write" 7, .called 9 8 [⟨5⟩],
    .called 10 8 [⟨6⟩]]
  decls := #[⟨"c", .inst (.specialized ⟨2⟩ [.struct ⟨1⟩]) []⟩]
  typeDecls := #[⟨"t", .header [⟨"f", .bits 48 false⟩, ⟨"g", .bits 48 false⟩]⟩,
    ⟨"pair", .struct [⟨"a", .bits 48 false⟩, ⟨"b", .bits 48 false⟩] false⟩,
    ⟨"cell", .external ["T"] [⟨"write", [], [⟨"value", .into, .var "T"⟩], .void⟩]⟩]
  headers := #[⟨"h", ⟨0⟩, false⟩]

theorem stampedPairs_plainNames : stampedPairs.PlainNames := by
  constructor <;> simp [stampedPairs, TypeDecl.fields] <;> decide

/-- The field of the first payload is extracted into the member of its name. -/
theorem stampedPairs_field_extracted :
    let env : Env := ⟨⟨stampedPairs, .standard, .empty⟩, none⟩
    ∃ (var text : String) (u : State) (l : PacketField),
      stampedPairs.validate = .ok () ∧
      expr ⟨9⟩ .value env ⟨.empty, .empty⟩ = (.ok text, u) ∧
      stampedPairs.componentField? ⟨"a", ⟨2⟩⟩ = some l ∧
      extraction var l "a" ∈ u.emission.current.pre := by
  intro env
  have hcall : stampedPairs.CallsExternal ⟨⟨8⟩, [], [⟨5⟩]⟩ _ _ :=
    .of rfl rfl rfl rfl (by decide) rfl
  have hrun := run_of_toOption (x := expr ⟨9⟩ .value env ⟨.empty, .empty⟩)
    (a := "extern_cell_write(&(global_smem.c))") (by decide +kernel)
  obtain ⟨d, var, address, lines, s₁, s₂, hd, -, -, -, -, hgrows, -, hiff⟩ :=
    deferred_extracted_iff stampedPairs rfl ⟨9⟩ _ rfl _ rfl _ _ hcall rfl _ _ [] rfl _ rfl _ rfl
      _ rfl env rfl .value _ _ _ hrun
  cases hd
  obtain ⟨l, hl, hmem⟩ := (hiff stampedPairs_plainNames ⟨"a", ⟨2⟩⟩ (.head _) 48 rfl).2
    ⟨_, rfl, (⟨"a", .bits 48 false⟩, ⟨"a", ⟨2⟩⟩), .head _, rfl, by decide, _, rfl, rfl, rfl⟩
  refine ⟨var, _, _, l, rfl, hrun, hl, hgrows.pre.subset ?_⟩
  exact Emission.mem_foldl_addOnce.2 (.inr (.tail _ (List.mem_append_left _ hmem)))

/-- The constant of the first payload is extracted nowhere. In the second payload each of the two
fields is extracted into the member that the other one names. Nothing is reported. -/
theorem stampedPairs_misplaced :
    let env : Env := ⟨⟨stampedPairs, { Config.standard with emitDebugTraces := false }, .empty⟩,
      none⟩
    let first := (expr ⟨9⟩ .value env ⟨.empty, .empty⟩).2
    let second := (expr ⟨10⟩ .value env ⟨.empty, .empty⟩).2
    stampedPairs.validate = .ok () ∧
    [(⟨"a", ⟨2⟩⟩ : Component), ⟨"b", ⟨4⟩⟩].map stampedPairs.deferredWidth? = [some 48, some 48] ∧
    first.emission.current.pre =
      ["struct pair var_1 = (struct pair) \x7b\n    /* a/48b will be initialised afterwards */\n" ++
        "    /* b/48b will be initialised afterwards */\n\x7d;",
      "EXTRACT_BYTEBUF_PACKET(pd, header_instance_h, field_instance_h_f, &(var_1.a));",
      "memcpy(&(global_smem.c), &var_1, sizeof(struct pair));",
      "extern void extern_cell_write(struct pair, struct pair);"] ∧
    first.memory.diagnostics = [] ∧
    second.emission.current.pre =
      ["struct pair var_1 = (struct pair) \x7b\n    /* b/48b will be initialised afterwards */\n" ++
        "    /* a/48b will be initialised afterwards */\n\x7d;",
      "EXTRACT_BYTEBUF_PACKET(pd, header_instance_h, field_instance_h_f, &(var_1.a));",
      "EXTRACT_BYTEBUF_PACKET(pd, header_instance_h, field_instance_h_g, &(var_1.b));",
      "memcpy(&(global_smem.c), &var_1, sizeof(struct pair));",
      "extern void extern_cell_write(struct pair, struct pair);"] ∧
    second.memory.diagnostics = [] :=
  ⟨rfl, by decide, by decide +kernel, by decide +kernel, by decide +kernel, by decide +kernel⟩

end Lower

end PacketC
