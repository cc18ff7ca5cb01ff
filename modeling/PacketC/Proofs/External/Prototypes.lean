import PacketC.Proofs.External.Outcome

/-! Prototypes and calls. The call of a method and the call of a function both put a prototype in
front of the statement. A function's prototype always lists as many parameters as the call passes
arguments. A method's lists the types of the declared parameters, perhaps after that of a payload,
while the call passes the receiver, what the convention adds, and the arguments that are not taken
as payload; the two come to the same number for few methods only. -/

namespace PacketC

open Lower

/-- What a call resolves to, where it becomes the call of a function with a prototype. -/
inductive CallTarget where
  | method (receiver : Expr) (t : ExternalTarget)
  /-- A function, with its signature if it is declared. -/
  | function (path : Path) (signature : Option Signature)

/-- The name `digest` is not that of a function: it stands for a message to the control plane. -/
inductive Program.Calls (p : Program) (call : Call) : CallTarget → Prop
  | method {receiver : Expr} {t : ExternalTarget} (h : p.CallsExternal call receiver t) :
      p.Calls call (.method receiver t)
  | function {e : Expr} {path : Path} {signature : Option Signature}
      (he : p.At call.method e) (hnode : e.node = .path path)
      (hname : path.name ≠ "digest") (hsignature : functionSignature? p path = .ok signature) :
      p.Calls call (.function path signature)

/-- The target is the named method of the named external type. -/
def Lower.ExternalTarget.Is (t : ExternalTarget) (owner method : String) : Prop :=
  t.decl.name = owner ∧ t.signature.name = method

instance (t : ExternalTarget) (owner method : String) : Decidable (t.Is owner method) :=
  inferInstanceAs (Decidable (_ ∧ _))

namespace CallTarget

variable (env : Env) (call : Call)

def params : CallTarget → List Param
  | .method _ t => t.signature.params
  | .function _ signature => (signature.map Signature.params).getD []

def name : CallTarget → String
  | .method _ t => t.function env call.typeArgs
  | .function path _ => path.name

def returnType : CallTarget → String
  | .method _ t => env.typeText t.signature.returnType
  | .function _ signature => ((signature.map Signature.returnType).map env.typeText).getD "void"

/-- The arguments that are lowered and passed on: a payload is not, nor is metadata. -/
def written : CallTarget → List (ExprId × Param)
  | .method receiver t => (t.loaded env receiver (t.pairs call)).args
  | .function path signature =>
    (call.args.zip (CallTarget.function path signature).params).filter fun q =>
      !isMetadataTy env.program q.2.ty

/-- How such an argument is lowered. -/
def lowers : CallTarget → ExprId × Param → LowerM String
  | .method .., (arg, param) => argument expr arg param
  | .function .., (arg, _) => functionArgument expr arg

/-- The parameters that the prototype lists. -/
def listed : CallTarget → List String
  | .method receiver t =>
    t.listedTypes env call.typeArgs (t.loaded env receiver (t.pairs call)).type
  | .function path signature =>
    ((CallTarget.function path signature).written env call).map (fun q => env.typeText q.2.ty) ++
      ["packet_descriptor_t* pd", "lookup_table_t** tables"]

/-- The arguments that the call passes, for the texts of those that are lowered. -/
def passed (texts : List String) : CallTarget → List String
  | .method receiver t => t.passed env call receiver texts
  | .function .. => texts ++ ["pd", "tables"]

/-- The prototype and the call come to the same number, if the call has an argument for each
parameter of the signature. -/
def Matches : CallTarget → Prop
  | .method receiver t =>
    if receiver.ty.isSpecialized then
      t.Is "register" "read" ∧ t.signature.params.length = 2 ∨
        t.Is "Digest" "pack" ∧ t.signature.params.length ≤ 1
    else t.signature.params.length = if t.Is "Digest" "pack" then 0 else 1
  | .function .. => True

end CallTarget

namespace Lower

variable {env : Env} {s u : State}

/-! ### Methods -/

namespace ExternalTarget

variable (t : ExternalTarget)

/-- Only two methods have a prototype of their own, and one of them is passed more than its
arguments. -/
theorem convention_cases :
    (t.Is "register" "read" ∧ t.convention.implicitArgs.length = 1 ∧
      ∃ templates, t.convention.paramTemplates = some templates ∧ templates.length = 3) ∨
    (t.Is "Digest" "pack" ∧ t.convention.implicitArgs = [] ∧
      ∃ templates, t.convention.paramTemplates = some templates ∧ templates.length = 1) ∨
    (¬t.Is "register" "read" ∧ ¬t.Is "Digest" "pack" ∧ t.convention.implicitArgs = [] ∧
      t.convention.paramTemplates = none) := by
  unfold convention Convention.of
  split
  case h_3 hd hs => exact .inl ⟨⟨hd, hs⟩, rfl, _, rfl, rfl⟩
  case h_5 hd hs => exact .inr (.inl ⟨⟨hd, hs⟩, rfl, _, rfl, rfl⟩)
  case h_6 _ _ h₃ _ h₅ => exact .inr (.inr ⟨fun h => h₃ h.1 h.2, fun h => h₅ h.1 h.2, rfl, rfl⟩)
  all_goals
    rename_i hd hs
    refine .inr (.inr ⟨?_, ?_, rfl, rfl⟩) <;> rintro ⟨hd', hs'⟩ <;> simp_all

variable {t}

variable {receiver : Expr} {args : List (ExprId × Param)}

/-- A specialized receiver has the type of its payload listed. -/
theorem length_type_of_specialized (hty : receiver.ty.isSpecialized = true)
    (hargs : ∀ q ∈ args, ∃ a, env.At q.1 a) :
    (t.loaded env receiver args).type.toList.length = min args.length 1 := by
  unfold loaded
  rw [if_pos hty]
  cases args with
  | nil => rfl
  | cons q rest =>
    obtain ⟨a, ha⟩ := hargs q (.head rest)
    dsimp only
    rw [ha]
    simp [Except.toOption]

/-- Another receiver has the type of a single argument listed. -/
theorem length_type_of_plain (hty : receiver.ty.isSpecialized = false)
    (hargs : ∀ q ∈ args, ∃ a, env.At q.1 a) :
    (t.loaded env receiver args).type.toList.length = if args.length = 1 then 1 else 0 := by
  unfold loaded
  rw [hty]
  rcases args with _ | ⟨q, _ | ⟨q', rest⟩⟩
  · rfl
  · obtain ⟨a, ha⟩ := hargs q (.head _)
    dsimp only
    rw [ha]
    rfl
  · simp

theorem length_listedTypes (typeArgs : List Ty) (payload : Option String) :
    (t.listedTypes env typeArgs payload).length =
      (t.convention.paramTemplates.map List.length).getD
        (payload.toList.length + t.signature.params.length) := by
  unfold listedTypes paramTypes
  cases t.convention.paramTemplates <;> simp

theorem length_passed (call : Call) (receiver : Expr) (texts : List String) :
    (t.passed env call receiver texts).length =
      1 + t.convention.implicitArgs.length + texts.length := by
  simp [passed, implicit]
  omega

end ExternalTarget

variable {call : Call} {id : ExprId}

/-- The types that the prototype lists, against what the call passes. -/
theorem listed_eq_passed_iff {receiver : Expr} {t : ExternalTarget}
    (hargs : ∀ a ∈ call.args, ∃ x, env.At a x)
    (hcount : call.args.length = t.signature.params.length) {texts : List String}
    (htexts : (t.loaded env receiver (t.pairs call)).args.length = texts.length) :
    ((CallTarget.method receiver t).listed env call).length =
      ((CallTarget.method receiver t).passed env call texts).length ↔
    (CallTarget.method receiver t).Matches := by
  have hpairs : ∀ q ∈ t.pairs call, ∃ a, env.At q.1 a := fun q hq =>
    hargs _ (List.of_mem_zip hq).1
  have hlength : (t.pairs call).length = t.signature.params.length := by
    simp [ExternalTarget.pairs, hcount]
  have hapart : t.Is "register" "read" → ¬t.Is "Digest" "pack" := by
    rintro ⟨h, _⟩ ⟨h', _⟩
    rw [h] at h'
    revert h'
    decide
  show (t.listedTypes ..).length = (t.passed ..).length ↔ if _ then _ else _
  rw [ExternalTarget.length_listedTypes, ExternalTarget.length_passed, ← htexts]
  cases hty : receiver.ty.isSpecialized
  · rw [ExternalTarget.length_type_of_plain hty hpairs, ExternalTarget.loaded_args,
      ExternalTarget.taken, hty, List.length_drop, hlength]
    rcases t.convention_cases with ⟨hr, hi, ts, hts, hn⟩ | ⟨hd, hi, ts, hts, hn⟩ | ⟨hr, hd, hi, hts⟩
    · simp [hi, hts, hn, hapart hr]
      omega
    · simp [hi, hts, hn, hd]
    · simp [hi, hts, hd]
  · rw [ExternalTarget.length_type_of_specialized hty hpairs, ExternalTarget.loaded_args,
      ExternalTarget.taken, hty, List.length_drop, hlength]
    rcases t.convention_cases with ⟨hr, hi, ts, hts, hn⟩ | ⟨hd, hi, ts, hts, hn⟩ | ⟨hr, hd, hi, hts⟩
    · simp [hi, hts, hn, hr, hapart hr]
      omega
    · have hr : ¬t.Is "register" "read" := fun hr => hapart hr hd
      simp [hi, hts, hn, hr, hd]
      omega
    · simp [hi, hts, hr, hd]
      omega

/-! ### Functions -/

/-- The two standard parameters are written as one item, and are two of the list. -/
theorem commaList_pair (items : List String) (a b : String) :
    commaList (items ++ [a ++ ", " ++ b]) = commaList (items ++ [a, b]) := by
  unfold commaList
  induction items with
  | nil => rfl
  | cons x items ih =>
    cases items with
    | nil => simp only [List.singleton_append, String.intercalate_cons_cons]; rfl
    | cons y items =>
      simp only [List.cons_append, String.intercalate_cons_cons] at ih ⊢
      rw [ih]

theorem prototype_shortParams (returnType function : String) (types : List String) :
    prototype returnType function (types ++ [Target.shortParams]) =
      prototype returnType function
        (types ++ ["packet_descriptor_t* pd", "lookup_table_t** tables"]) := by
  unfold prototype
  rw [← commaList_pair]
  rfl

theorem exists_of_functionArguments {recur : Recur} {pairs : List (ExprId × Param)}
    {args : List (String × String)}
    (h : functionArguments recur pairs env s = (.ok args, u)) :
    args.map Prod.snd = (pairs.filter fun q => !isMetadataTy env.program q.2.ty).map
        (fun q => env.typeText q.2.ty) ∧
      List.Forall₂ (fun q text => Returns env (functionArgument recur q.1) text)
        (pairs.filter fun q => !isMetadataTy env.program q.2.ty) (args.map Prod.fst) := by
  induction pairs generalizing s u args with
  | nil => cases h; exact ⟨rfl, .nil⟩
  | cons q rest ih =>
    obtain ⟨arg, param⟩ := q
    unfold functionArguments at h
    have hask : ask (fun p => isMetadataTy p param.ty) env =
        (pure (isMetadataTy env.program param.ty) : LowerM Bool) env := rfl
    rw [bind_of_pure hask] at h
    split at h
    · rename_i hmeta
      rw [List.filter_cons_of_neg (by simp [hmeta])]
      exact ih h
    · rename_i hmeta
      rw [List.filter_cons_of_pos (by simp [hmeta])]
      obtain ⟨text, s₁, htext, h⟩ := exists_of_bind h
      obtain ⟨ds, h⟩ := (typeText_notes param.ty).exists_of_bind h
      obtain ⟨args', s₂, hrest, h⟩ := exists_of_bind h
      cases h
      obtain ⟨htypes, htexts⟩ := ih hrest
      exact ⟨congrArg (_ :: ·) htypes, .cons ⟨_, _, htext⟩ htexts⟩

theorem expr_of_callsFunction (wf : env.program.WellFormed) {e : Expr}
    (he : env.At id e) (hnode : e.node = .call call) {m : Expr}
    (hm : env.At call.method m) {path : Path} (hpath : m.node = .path path)
    (mode : Mode) : expr id mode env = callFunction expr e.id call path env := by
  rw [expr_eq_nodeText wf he]
  unfold nodeText
  rw [hnode]
  refine (bind_of_pure (look_of_ok hm)).trans ?_
  rw [hpath]

/-- The call of a function, with its prototype. -/
theorem exists_of_callFunction {recur : Recur} {path : Path} (hname : path.name ≠ "digest")
    {signature : Option Signature}
    (hsignature : functionSignature? env.program path = .ok signature) {text : String}
    (h : callFunction recur id call path env s = (.ok text, u)) :
    let callee := CallTarget.function path signature
    ∃ texts, List.Forall₂ (fun q text => Returns env (functionArgument recur q.1) text)
        (callee.written env call) texts ∧
      prototype (callee.returnType env) path.name (callee.listed env call) ∈
        u.emission.current.pre ∧
      text = invocation path.name (callee.passed env call texts) := by
  unfold callFunction at h
  rw [if_neg hname, bind_of_pure (look_of_ok hsignature)] at h
  cases signature with
  | none =>
    dsimp only at h
    split at h
    · obtain ⟨_, _, hhoist, h⟩ := exists_of_bind h
      cases hhoist
      cases h
      have hwritten : (CallTarget.function path none).written env call = [] := by
        simp [CallTarget.written, CallTarget.params]
      refine ⟨[], hwritten ▸ .nil, ?_, rfl⟩
      rw [CallTarget.listed, hwritten, List.map_nil, ← prototype_shortParams]
      exact mem_prepend _ _
    · cases h
  | some signature =>
    obtain ⟨args, s₁, hargs, h⟩ := exists_of_bind h
    obtain ⟨ds, h⟩ := (typeText_notes signature.returnType).exists_of_bind h
    obtain ⟨_, _, hhoist, h⟩ := exists_of_bind h
    cases hhoist
    cases h
    obtain ⟨htypes, htexts⟩ := exists_of_functionArguments hargs
    refine ⟨args.map Prod.fst, htexts, ?_, ?_⟩
    · have hwritten : (CallTarget.function path (some signature)).written env call =
          (call.args.zip signature.params).filter fun q => !isMetadataTy env.program q.2.ty := rfl
      rw [CallTarget.listed, hwritten, ← htypes, ← prototype_shortParams]
      exact mem_prepend _ _
    · unfold invocation CallTarget.passed
      rw [← commaList_pair]
      rfl

/-! ### Calls with prototypes -/

theorem exists_of_method (wf : env.program.WellFormed) {e : Expr} (he : env.At id e)
    (hnode : e.node = .call call) {receiver : Expr} {t : ExternalTarget}
    (h : env.program.CallsExternal call receiver t) {mode : Mode} {text : String}
    (hrun : expr id mode env s = (.ok text, u)) : let callee := CallTarget.method receiver t
    ∃ texts, List.Forall₂ (fun q text => Returns env (callee.lowers q) text)
        (callee.written env call) texts ∧
      prototype (callee.returnType env) (callee.name env call) (callee.listed env call) ∈
        u.emission.current.pre ∧
      text = invocation (callee.name env call) (callee.passed env call texts) := by
  rw [expr_of_callsExternal wf he hnode h] at hrun
  have hargs : ∀ a ∈ call.args, ∃ x, env.At a x := fun a ha =>
    wf.exists_part he (hnode ▸ .arg ha)
  obtain ⟨s₁, ds, s₂, es, texts, -, htexts, rfl, htext⟩ :=
    exists_of_callExternal h.target hargs hrun
  exact ⟨texts, forall₂_of_mapM htexts, mem_prepend _ _, htext⟩

/-- A call puts the prototype of the function that it calls in front of the statement. For a
function the prototype lists as many parameters as the call passes arguments. For a method it does
so if and only if the method is one of the few that match. -/
theorem prototype_matches_iff (p : Program) (hv : p.validate = .ok ()) (id : ExprId) (e : Expr)
    (he : p.expr id = .ok e) (call : Call) (hnode : e.node = .call call) (callee : CallTarget)
    (hcallee : p.Calls call callee) (hcount : call.args.length = callee.params.length) (env : Env)
    (henv : env.program = p) (mode : Mode) (s u : State) (text : String)
    (hrun : expr id mode env s = (.ok text, u)) :
    ∃ texts, List.Forall₂ (fun q text => Returns env (callee.lowers q) text)
        (callee.written env call) texts ∧
      prototype (callee.returnType env) (callee.name env call) (callee.listed env call) ∈
        u.emission.current.pre ∧
      text = invocation (callee.name env call) (callee.passed env call texts) ∧
      ((callee.listed env call).length = (callee.passed env call texts).length ↔
        callee.Matches) := by
  have wf := Program.WellFormed.of_validate hv
  subst henv
  cases hcallee with
  | method h =>
    obtain ⟨texts, htexts, hpre, htext⟩ := exists_of_method wf he hnode h hrun
    refine ⟨texts, htexts, hpre, htext, listed_eq_passed_iff (fun a ha => ?_) hcount ?_⟩
    · exact wf.exists_part he (hnode ▸ .arg ha)
    · exact htexts.length_eq
  | function hm hpath hname hsignature =>
    rw [expr_of_callsFunction wf he hnode hm hpath] at hrun
    obtain ⟨texts, htexts, hpre, htext⟩ := exists_of_callFunction hname hsignature hrun
    refine ⟨texts, htexts, hpre, htext, ?_⟩
    have hlength := htexts.length_eq
    simp [CallTarget.listed, CallTarget.passed, CallTarget.Matches, hlength]

/-- A counter that is reset, and a register that is read and written. -/
def resetAndRead : Program where
  exprs := #[.declared 0 (.external ⟨0⟩) "c" 0, .method 1 "reset" 0, .called 2 1 [],
    .declared 3 (.specialized ⟨1⟩ [.bits 32 false]) "r" 1, .method 4 "read" 3,
    .declared 5 (.bits 32 false) "x" 2, .number 6 32 3, .called 7 4 [⟨5⟩, ⟨6⟩], .method 8 "write" 3,
    .called 9 8 [⟨6⟩, ⟨5⟩]]
  decls := #[⟨"c", .inst (.external ⟨0⟩) []⟩, ⟨"r", .inst (.specialized ⟨1⟩ [.bits 32 false]) []⟩,
    ⟨"x", .var (.bits 32 false) none⟩]
  typeDecls := #[⟨"counter", .external [] [⟨"reset", [], [], .void⟩]⟩,
    ⟨"register", .external ["T"]
      [⟨"read", [], [⟨"result", .out, .var "T"⟩, ⟨"index", .into, .bits 32 false⟩], .void⟩,
        ⟨"write", [], [⟨"index", .into, .bits 32 false⟩, ⟨"value", .into, .var "T"⟩], .void⟩]⟩]

/-- Reading the register matches: three types are listed and three arguments passed. -/
theorem resetAndRead_matches :
    ∃ (callee : CallTarget) (texts : List String) (u : State),
      let env : Env := ⟨⟨resetAndRead, .standard, .empty⟩, none⟩
      let call : Call := ⟨⟨4⟩, [], [⟨5⟩, ⟨6⟩]⟩
      resetAndRead.validate = .ok () ∧ resetAndRead.Calls call callee ∧
      expr ⟨7⟩ .value env ⟨.empty, .empty⟩ =
        (.ok (invocation (callee.name env call) (callee.passed env call texts)), u) ∧
      prototype (callee.returnType env) (callee.name env call) (callee.listed env call) ∈
        u.emission.current.pre ∧
      (callee.listed env call).length = (callee.passed env call texts).length := by
  let env : Env := ⟨⟨resetAndRead, .standard, .empty⟩, none⟩
  have hrun := run_of_toOption (x := expr ⟨7⟩ .value env ⟨.empty, .empty⟩)
    (a := "extern_register_read_uint32_t(&(global_smem.r), &(global_smem.x), (uint32_t)3)")
    (by decide +kernel)
  have hcall : resetAndRead.CallsExternal ⟨⟨4⟩, [], [⟨5⟩, ⟨6⟩]⟩ _ _ :=
    .of rfl rfl rfl rfl (by decide) rfl
  obtain ⟨texts, -, hpre, htext, hiff⟩ := prototype_matches_iff resetAndRead rfl ⟨7⟩ _ rfl _ rfl _
    (.method hcall) rfl env rfl .value _ _ _ hrun
  exact ⟨_, texts, _, rfl, .method hcall, htext ▸ hrun, hpre, hiff.2 (.inl ⟨⟨rfl, rfl⟩, rfl⟩)⟩

/-- Resetting the counter passes the counter to a function of no parameters, and writing to the
register passes two arguments to a function of three. -/
theorem resetAndRead_mismatch : resetAndRead.validate = .ok () ∧
    ∃ u v : State,
      let env : Env := ⟨⟨resetAndRead, .standard, .empty⟩, none⟩
      expr ⟨2⟩ .value env ⟨.empty, .empty⟩ = (.ok "extern_counter_reset(global_smem.c)", u) ∧
      u.emission.current.pre = ["extern void extern_counter_reset();"] ∧
      u.memory.diagnostics = [] ∧
      expr ⟨9⟩ .value env ⟨.empty, .empty⟩ =
        (.ok "extern_register_write_uint32_t(&(global_smem.r), parameters.x)", v) ∧
      "extern void extern_register_write_uint32_t(uint32_t, uint32_t, uint32_t);" ∈
        v.emission.current.pre ∧
      v.memory.diagnostics = [] :=
  ⟨rfl, _, _, run_of_toOption (by decide +kernel), by decide +kernel, by decide +kernel,
    run_of_toOption (by decide +kernel), by decide +kernel, by decide +kernel⟩

end Lower

end PacketC
