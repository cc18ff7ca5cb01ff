import PacketC.Proofs.External.Outcome

/-! Where a variable is stored. Its text in an expression and the source of an assignment follow its
own declaration: it is kept with the locals of the block, if it is one of them. The storage that is
passed unasked when a register is read follows the declaration of the register instead. -/

namespace PacketC.Lower

variable {env : Env} {path : Path} {decl : DeclId} {s u : State}

/-! ### Places -/

theorem ne_localStorage (name : String) : name ≠ localStorage name := by
  have h : "" ++ name ≠ "local_vars->" ++ name := (String.append_left_inj name).not.2 (by decide)
  rwa [String.empty_append] at h

theorem parameterStorage_ne (name : String) : parameterStorage name ≠ localStorage name :=
  (String.append_left_inj name).not.2 (by decide)

theorem owner_eq_iff (path : Path) (name : String) :
    env.owner path ++ name = localStorage name ↔ env.isLocalPath path = true := by
  unfold localStorage Env.owner
  rw [String.append_left_inj]
  split <;> simp_all

/-! ### Paths -/

namespace Env

/-- The text of a variable in an expression. -/
def variableText (env : Env) (path : Path) (mode : Mode) : String :=
  if env.isLocalPath path then localStorage path.name
  else if mode.expandParameters && !path.absolute then parameterStorage path.name
  else path.name

/-- The text of a variable whose bytes are copied. -/
def addressText (env : Env) (path : Path) : String :=
  if env.isLocalPath path then localStorage path.name else parameterStorage path.name

end Env

theorem variableText_eq_iff (mode : Mode) :
    env.variableText path mode = localStorage path.name ↔ env.isLocalPath path = true := by
  unfold Env.variableText
  split
  · simp_all
  · split
    · simp_all [parameterStorage_ne]
    · simp_all [ne_localStorage]

theorem addressText_eq_iff :
    env.addressText path = localStorage path.name ↔ env.isLocalPath path = true := by
  unfold Env.addressText
  split
  · simp_all
  · simp_all [parameterStorage_ne]

theorem pathText_eq (hdecl : path.decl = some decl) (mode : Mode) :
    pathText path mode env = (pure (env.variableText path mode) : LowerM String) env := by
  unfold pathText Env.variableText Env.isLocalPath
  rw [hdecl]
  refine (bind_of_pure (a := env.owns decl) rfl).trans ?_
  rw [Option.any_some]
  split
  · rfl
  · split <;> rfl

theorem addressedPath_eq (hdecl : path.decl = some decl) :
    addressedPath path env = (pure (env.addressText path) : LowerM String) env := by
  unfold addressedPath Env.addressText Env.isLocalPath
  rw [hdecl]
  refine (bind_of_pure (a := env.owns decl) rfl).trans ?_
  rw [Option.any_some]
  split <;> rfl

theorem expr_of_path (wf : env.program.WellFormed) {id : ExprId} {x : Expr}
    (hx : env.At id x) (hnode : x.node = .path path) (hdecl : path.decl = some decl)
    (mode : Mode) : expr id mode env = (pure (env.variableText path mode) : LowerM String) env := by
  rw [expr_eq_nodeText wf hx]
  unfold nodeText
  rw [hnode]
  exact pathText_eq hdecl mode

/-! ### Assignments -/

/-- The lines of a trace, where traces are asked for. -/
def Env.traced (env : Env) (line : String) : List String :=
  if env.config.emitDebugTraces then [line] else []

/-- The lines before a store and the value that is stored, where it is read from `source`. -/
inductive LoadedFrom (l : PacketField) (source : String) : List String × String → Prop
  | plain : LoadedFrom l source ([], source)
  | copied (name : String) :
      LoadedFrom l source
        ([s!"uint32_t {name};", s!"memcpy(&{name}, {source}, {l.bytes});"], name)

/-- The code that stores what is read from `source` in a field, as a scalar or byte by byte. -/
inductive StoredFrom (env : Env) (l : PacketField) (source : String) : String → Prop
  | scalar (h : l.width ≤ 32) {before : List String} {value : String}
      (hvalue : LoadedFrom l source (before, value)) :
      StoredFrom env l source
        (Text.unlines (before ++ setField l value :: env.traced (shortFieldTrace l)))
  | bytes (h : 32 < l.width) :
      StoredFrom env l source (Text.unlines
        (lengthLines l ++ modifyField l source (toString l.bytes) ::
          env.traced (wideFieldTrace l ⟨source, toString l.bytes⟩)))

section Assign

variable (wf : env.program.WellFormed) {id : ExprId} {x : Expr}
  (hx : env.At id x) (hnode : x.node = .path path) (hdecl : path.decl = some decl)

include wf hx hnode hdecl

theorem exists_shortFieldValue (l : PacketField) (s : State) :
    ∃ source value u, shortFieldValue expr l x env s = (.ok value, u) ∧
      LoadedFrom l source value ∧
      (source = localStorage path.name ↔ env.isLocalPath path = true) := by
  unfold shortFieldValue Expr.path?
  rw [hnode]
  by_cases hprimitive : x.ty.isPrimitive = true
  · refine ⟨_, _, s, ?_, .plain, variableText_eq_iff .expanded⟩
    rw [if_pos hprimitive, wf.id_eq hx]
    dsimp only
    rw [bind_of_pure (expr_of_path wf hx hnode hdecl .expanded)]
    rfl
  · refine ⟨_, _, (freshName "value32" env s).2, ?_,
      .copied (s.memory.names.fresh "value32").1, addressText_eq_iff⟩
    have hfresh : freshName "value32" env s = (.ok (s.memory.names.fresh "value32").1,
      s.withNames (s.memory.names.fresh "value32").2) := rfl
    rw [if_neg hprimitive]
    dsimp only
    rw [run_bind, hfresh]
    dsimp only
    rw [bind_of_pure (addressedPath_eq hdecl)]
    rfl

/-- Storing a variable in a field reads it from where its own declaration puts it. -/
theorem exists_assign {left : ExprId} {dst : Expr} (hdst : env.At left dst)
    {ref : FieldRef} (href : dst.fieldRef? = some ref) {l : PacketField}
    (hl : env.program.packetField ref = .ok l) (s : State) :
    ∃ source text u, assign expr left id env s = (.ok text, u) ∧ StoredFrom env l source text ∧
      (source = localStorage path.name ↔ env.isLocalPath path = true) := by
  unfold assign
  rw [bind_of_pure (look_of_ok hdst), bind_of_pure (look_of_ok hx), href]
  dsimp only
  rw [bind_of_pure (look_of_ok hl)]
  split
  · rename_i hwidth
    obtain ⟨source, value, u, hvalue, hloaded, hiff⟩ := exists_shortFieldValue wf hx hnode hdecl l s
    refine ⟨source, _, u, ?_, .scalar hwidth hloaded, hiff⟩
    unfold storeScalar
    rw [run_bind, hvalue]
    rfl
  · rename_i hwidth
    refine ⟨_, _, s, ?_, .bytes (by omega), addressText_eq_iff⟩
    unfold storeBytes byteSource plainSource Expr.member?
    rw [hnode]
    dsimp only
    rw [run_bind, bind_of_pure (addressedPath_eq hdecl)]
    rfl

end Assign

/-! ### Reading a register -/

theorem implicit_of_registerRead {t : ExternalTarget} (hname : t.decl.name = "register")
    (hmethod : t.signature.name = "read") {id : ExprId} {x : Expr}
    (hx : env.At id x) (hnode : x.node = .path path) (rest : List ExprId) :
    t.implicit env (id :: rest) = ["&(" ++ (env.owner t.path ++ path.name) ++ ")"] := by
  have himplicit : t.convention.implicitArgs = ["&(\x7b\x7d)"] := by
    rw [ExternalTarget.convention, hname, hmethod]
    rfl
  have hstorage : t.argumentStorage env (id :: rest) = env.owner t.path ++ path.name := by
    rcases x with ⟨_, _, node⟩
    subst hnode
    unfold ExternalTarget.argumentStorage
    dsimp only
    rw [hx]
  rw [ExternalTarget.implicit, himplicit, hstorage, List.map_singleton, fillStorage_address]

/-- A variable's text and the source of an assignment to a field name the locals of the block if and
only if the variable is one of them. What is passed unasked for it when a register is read names
them if and only if the register is one of them; so it is where the variable is if and only if both
are locals or neither is. -/
theorem storage_agrees_iff (p : Program) (hv : p.validate = .ok ()) (id : ExprId) (x : Expr)
    (hx : p.expr id = .ok x) (path : Path) (hnode : x.node = .path path) (decl : DeclId)
    (hdecl : path.decl = some decl) (env : Env) (henv : env.program = p) :
    (∀ mode s, ∃ text, expr id mode env s = (.ok text, s) ∧
      (text = localStorage path.name ↔ env.owns decl = true)) ∧
    (∀ left dst ref l s, p.expr left = .ok dst → dst.fieldRef? = some ref →
      p.packetField ref = .ok l →
      ∃ source text u, assign expr left id env s = (.ok text, u) ∧ StoredFrom env l source text ∧
        (source = localStorage path.name ↔ env.owns decl = true)) ∧
    (∀ callId e call receiver t rest mode s u text, p.expr callId = .ok e → e.node = .call call →
      p.CallsExternal call receiver t → t.decl.name = "register" → t.signature.name = "read" →
      call.args = id :: rest → expr callId mode env s = (.ok text, u) →
      ∃ destination texts,
        text = invocation (t.function env call.typeArgs)
          ((t.loaded env receiver (t.pairs call)).receiver :: ("&(" ++ destination ++ ")") ::
            texts) ∧
        (destination = localStorage path.name ↔ env.isLocalPath t.path = true) ∧
        ((destination = localStorage path.name ↔ env.owns decl = true) ↔
          env.isLocalPath t.path = env.owns decl)) := by
  have wf := Program.WellFormed.of_validate hv
  subst henv
  have hlocal : env.isLocalPath path = env.owns decl := by
    rw [Env.isLocalPath, hdecl, Option.any_some]
  refine ⟨?_, ?_, ?_⟩
  · intro mode s
    exact ⟨_, congrFun (expr_of_path wf hx hnode hdecl mode) s, hlocal ▸ variableText_eq_iff mode⟩
  · intro left dst ref l s hdst href hl
    exact hlocal ▸ exists_assign wf hx hnode hdecl hdst href hl s
  · intro callId e call receiver t rest mode s u text he hcall hcalls hname hmethod hargs hrun
    rw [expr_of_callsExternal wf he hcall hcalls] at hrun
    obtain ⟨s₁, ds, s₂, es, texts, -, -, -, htext⟩ := exists_of_callExternal hcalls.target
      (fun a ha => wf.exists_part he (hcall ▸ .arg ha)) hrun
    have hdestination : env.owner t.path ++ path.name = localStorage path.name ↔
        env.isLocalPath t.path = true := owner_eq_iff t.path path.name
    refine ⟨env.owner t.path ++ path.name, texts, ?_, hdestination, ?_⟩
    · rw [htext, ExternalTarget.passed, hargs, implicit_of_registerRead hname hmethod hx hnode]
      rfl
    · rw [hdestination]
      cases env.isLocalPath t.path <;> cases env.owns decl <;> decide

/-- A register and a variable that a block keeps with its locals, and one of each that it does
not. -/
def twoRegisters : Program where
  exprs := #[.packet, .packetHeader, .packetField 2 (.bits 32 false) "f" 0,
    .declared 3 (.bits 32 false) "x" 0, .declared 4 (.bits 32 false) "y" 1,
    .declared 5 (.specialized ⟨1⟩ [.bits 32 false]) "q" 2,
    .declared 6 (.specialized ⟨1⟩ [.bits 32 false]) "r" 3, .number 7 32 3, .method 8 "read" 5,
    .method 9 "read" 6, .called 10 8 [⟨3⟩, ⟨7⟩], .called 11 8 [⟨4⟩, ⟨7⟩], .called 12 9 [⟨3⟩, ⟨7⟩]]
  decls := #[⟨"x", .var (.bits 32 false) none⟩, ⟨"y", .var (.bits 32 false) none⟩,
    ⟨"q", .inst (.specialized ⟨1⟩ [.bits 32 false]) []⟩,
    ⟨"r", .inst (.specialized ⟨1⟩ [.bits 32 false]) []⟩]
  typeDecls := #[⟨"t", .header [⟨"f", .bits 32 false⟩]⟩,
    ⟨"register", .external ["T"]
      [⟨"read", [], [⟨"result", .out, .var "T"⟩, ⟨"index", .into, .bits 32 false⟩], .void⟩]⟩]
  headers := #[⟨"h", ⟨0⟩, false⟩]
  blocks := #[⟨"ingress", "control_t", .control, [⟨0⟩, ⟨2⟩]⟩]

/-- For a register and a variable that are both kept with the locals, all agree. -/
theorem twoRegisters_agree :
    let env : Env := ⟨⟨twoRegisters, .standard, .empty⟩, some ⟨0⟩⟩
    let s : State := ⟨.empty, .empty⟩
    twoRegisters.validate = .ok () ∧
    expr ⟨3⟩ .value env s = (.ok (localStorage "x"), s) ∧
    (∃ l text u, assign expr ⟨2⟩ ⟨3⟩ env s = (.ok text, u) ∧
      StoredFrom env l (localStorage "x") text) ∧
    ∃ function receiver texts u, expr ⟨10⟩ .value env s =
      (.ok (invocation function (receiver :: ("&(" ++ localStorage "x" ++ ")") :: texts)), u) := by
  intro env s
  obtain ⟨hplain, hassign, hread⟩ := storage_agrees_iff twoRegisters rfl ⟨3⟩ _ rfl
    ⟨"x", some ⟨0⟩, false⟩ rfl ⟨0⟩ rfl env rfl
  obtain ⟨text, htext, hlocal⟩ := hplain .value s
  obtain ⟨source, stored, u, hrun, hstored, hsource⟩ :=
    hassign ⟨2⟩ _ ⟨⟨0⟩, 0⟩ ⟨"h", "header_instance_h", "t", "f", 32, false, 32⟩ s rfl rfl rfl
  obtain rfl := hlocal.2 (by decide)
  obtain rfl := hsource.2 (by decide)
  have hcall : twoRegisters.CallsExternal ⟨⟨8⟩, [], [⟨3⟩, ⟨7⟩]⟩ _ _ :=
    .of rfl rfl rfl rfl (by decide) rfl
  have hread10 := run_of_toOption (x := expr ⟨10⟩ .value env s)
    (a := "extern_register_read_uint32_t(&(local_vars->q), &(local_vars->x), (uint32_t)3)")
    (by decide +kernel)
  obtain ⟨destination, texts, hinvocation, hdestination, -⟩ :=
    hread ⟨10⟩ _ _ _ _ _ .value s _ _ rfl rfl hcall rfl rfl rfl hread10
  obtain rfl := hdestination.2 (by decide)
  exact ⟨rfl, htext, ⟨_, stored, u, hrun, hstored⟩, _, _, texts, _, hinvocation ▸ hread10⟩

/-- A local that is read into from a register that is not one is taken for one that is not, and the
other way round. -/
theorem twoRegisters_differ :
    let env : Env := ⟨⟨twoRegisters, .standard, .empty⟩, some ⟨0⟩⟩
    let s : State := ⟨.empty, .empty⟩
    twoRegisters.validate = .ok () ∧ env.owns ⟨0⟩ = true ∧ env.owns ⟨1⟩ = false ∧
    (expr ⟨3⟩ .value env s).1.toOption = some "local_vars->x" ∧
    (expr ⟨12⟩ .value env s).1.toOption =
      some "extern_register_read_uint32_t(&(global_smem.r), &(global_smem.x), (uint32_t)3)" ∧
    (expr ⟨4⟩ .value env s).1.toOption = some "y" ∧
    (expr ⟨11⟩ .value env s).1.toOption =
      some "extern_register_read_uint32_t(&(local_vars->q), &(local_vars->y), (uint32_t)3)" := by
  refine ⟨rfl, by decide, by decide, ?_, ?_, ?_, ?_⟩ <;> decide +kernel

end PacketC.Lower
