import PacketC.Proofs.Lists.Assembly
import PacketC.Proofs.Lower.Descent
import PacketC.Proofs.Prose.Calls

/-! What a call of a method of an external object comes to. Where the receiver is stored, what the
function is called, which types its prototype lists and what is passed unasked are a matter of the
program and of the block that the call is in; only the written arguments are lowered. -/

namespace PacketC

def Ty.isSpecialized : Ty → Bool
  | .specialized .. => true
  | _ => false

namespace Lower

variable {α β : Type} {env : Env} {s u : State} {recur : Recur}

/-! ### Actions that only take notes -/

/-- From any state the action yields `a`, and takes notes. -/
def Notes (env : Env) (x : LowerM α) (a : α) : Prop :=
  ∀ s, ∃ ds, x env s = (.ok a, s.note ds)

namespace Notes

variable {x : LowerM α} {f : α → LowerM β} {a : α} {b : β}

theorem of_pure (h : x env = (Pure.pure a : LowerM α) env) : Notes env x a := by
  intro s
  obtain ⟨ds, hds⟩ := exists_note s
  exact ⟨ds, by rw [h, ← hds, run_pure]⟩

theorem pure (a : α) : Notes env (Pure.pure a) a := of_pure rfl

theorem bind (hx : Notes env x a) (hf : Notes env (f a) b) : Notes env (x >>= f) b := by
  intro s
  obtain ⟨ds, hds⟩ := hx s
  obtain ⟨es, hes⟩ := hf (s.note ds)
  refine ⟨ds ++ es, ?_⟩
  rw [run_bind, hds]
  exact hes.trans (by rw [State.note_note])

theorem note (ds : List Diagnostic) : Notes env (Lower.note ds) () := fun _ => ⟨ds, rfl⟩

theorem mapM {f : α → LowerM β} {g : α → β} {l : List α} (h : ∀ a ∈ l, Notes env (f a) (g a)) :
    Notes env (l.mapM f) (l.map g) := by
  induction l with
  | nil => rw [List.mapM_nil]; exact pure []
  | cons a l ih =>
    rw [List.mapM_cons]
    exact (h a (.head l)).bind ((ih fun b hb => h b (.tail a hb)).bind (pure _))

theorem eq_of_returns (hx : Notes env x a) {a' : α} (h : Returns env x a') : a' = a := by
  obtain ⟨s, s', hs⟩ := h
  obtain ⟨ds, hds⟩ := hx s
  rw [hds] at hs
  cases hs
  rfl

/-- What follows runs from a state with the notes taken. -/
theorem exists_of_bind (hx : Notes env x a) (h : (x >>= f) env s = (.ok b, u)) :
    ∃ ds, f a env (s.note ds) = (.ok b, u) := by
  obtain ⟨ds, hds⟩ := hx s
  rw [run_bind, hds] at h
  exact ⟨ds, h⟩

end Notes

theorem run_of_toOption {x : Except LowerError α × State} {a : α} (h : x.1.toOption = some a) :
    x = (.ok a, x.2) := by
  rcases x with ⟨_ | _, _⟩ <;> cases h
  rfl

theorem forall₂_of_mapM {f : α → LowerM β} {l : List α} {bs : List β}
    (h : l.mapM f env s = (.ok bs, u)) : List.Forall₂ (fun a b => Returns env (f a) b) l bs := by
  induction l generalizing s bs with
  | nil => rw [List.mapM_nil] at h; cases h; exact .nil
  | cons a l ih =>
    rw [List.mapM_cons] at h
    obtain ⟨b, s₁, hb, h⟩ := exists_of_bind h
    obtain ⟨bs', s₂, hbs, h⟩ := exists_of_bind h
    cases h
    exact .cons ⟨_, _, hb⟩ (ih hbs)

/-! ### Storage and types -/

/-- Up to 32 bits there is a scalar that holds the width, and above there is none. -/
theorem bits?_cases (width : Nat) :
    (width ≤ 32 ∧ ∃ unit ∈ [8, 16, 32], (Container.ofWidth width).bits? = some unit ∧
      width ≤ unit) ∨
    (32 < width ∧ (Container.ofWidth width).bits? = none) := by
  unfold Container.ofWidth
  split
  · exact .inl ⟨by omega, 8, by decide, rfl, by assumption⟩
  · split
    · exact .inl ⟨by omega, 16, by decide, rfl, by assumption⟩
    · split
      · exact .inl ⟨by assumption, 32, by decide, rfl, by assumption⟩
      · exact .inr ⟨by omega, rfl⟩

namespace Env

/-- The declaration is a local of the block. -/
def owns (env : Env) (id : DeclId) : Bool :=
  env.block.any fun block => env.program.isLocalOf block id

/-- The path names a local of the block. -/
def isLocalPath (env : Env) (path : Path) : Bool := path.decl.any env.owns

def owner (env : Env) (path : Path) : String :=
  if env.isLocalPath path then "local_vars->" else "global_smem."

def storage (env : Env) (path : Path) : String := env.owner path ++ path.name

def typeText (env : Env) (ty : Ty) : String := (ty.render env.toTypeScope .parameter).text

/-- The type that a payload has in front of the statement. -/
def payloadType (env : Env) (a : Expr) (receiverArgs : List Ty) : String :=
  if a.ty.isBits || a.isConstant || Lower.payloadType.isStruct a.ty then env.typeText a.ty
  else (receiverArgs.head?.bind env.program.typeName?).getD
    "int/*temporarily inserted for unknown type*/"

end Env

theorem receiverOwner_eq (path : Path) :
    receiverOwner path env = (pure (env.owner path) : LowerM String) env := by
  unfold receiverOwner Env.owner Env.isLocalPath
  cases path.decl with
  | none => rfl
  | some decl => exact bind_of_pure (a := env.owns decl) rfl

theorem typeTextIn_notes (form : TypeForm) (ty : Ty) :
    Notes env (typeTextIn form ty) (ty.render env.toTypeScope form).text :=
  (Notes.of_pure (a := env) rfl).bind ((Notes.note _).bind (.pure _))

theorem typeText_notes (ty : Ty) : Notes env (typeText ty) (env.typeText ty) :=
  typeTextIn_notes .parameter ty

theorem payloadType_notes (a : Expr) (receiverArgs : List Ty) :
    Notes env (payloadType a receiverArgs) (env.payloadType a receiverArgs) := by
  unfold payloadType Env.payloadType
  split
  · exact typeText_notes _
  · refine (Notes.of_pure (a := receiverArgs.head?.bind env.program.typeName?) rfl).bind ?_
    split
    · rename_i name h
      rw [h]
      exact .pure _
    · rename_i h
      rw [h]
      exact (Notes.note _).bind (.pure _)

/-! ### What a method is called by -/

namespace ExternalTarget

variable (t : ExternalTarget) (env : Env) (typeArgs : List Ty)

def convention : Convention := .of t.decl.name t.signature.name

/-- The types of the parameters, for the type arguments of the call. -/
def paramTypes : List Ty :=
  t.signature.params.map fun param => instantiate (t.bindings typeArgs) param.ty

/-- The types that are part of the function's name. -/
def foldedTypes : List Ty :=
  if t.convention.foldTypeArgs then
    (t.convention.typeParamPositions.filterMap fun i => t.signature.params[i]?).map fun param =>
      instantiate (t.bindings typeArgs) param.ty
  else []

def function : String :=
  s!"extern_{t.decl.name}_{t.signature.name}" ++
    String.join ((t.foldedTypes typeArgs).map fun ty => "_" ++ env.typeText ty)

/-- The types that the prototype lists. -/
def listedTypes (payload : Option String) : List String :=
  let types := payload.toList ++ (t.paramTypes typeArgs).map env.typeText
  match t.convention.paramTemplates with
  | none => types
  | some templates => templates.map fun template => Convention.fill template types

/-- The storage of the first argument, if it has one, as the receiver's owner would keep it. -/
def argumentStorage : List ExprId → String
  | [] => env.storage t.path
  | arg :: _ =>
    match env.program.expr arg with
    | .ok ⟨_, _, .path path⟩ => env.owner t.path ++ path.name
    | .ok ⟨_, _, .member m⟩ => env.owner t.path ++ m.member
    | _ => ""

/-- What is passed unasked. -/
def implicit (args : List ExprId) : List String :=
  t.convention.implicitArgs.map (Convention.fillStorage (t.argumentStorage env args))

/-- The type of the payload, the receiver as it is passed, and the arguments that are passed
after it. -/
def loaded (receiver : Expr) (args : List (ExprId × Param)) : Loaded :=
  if receiver.ty.isSpecialized then
    match args with
    | [] => ⟨none, env.storage t.path, []⟩
    | (arg, _) :: rest =>
      ⟨(env.program.expr arg).toOption.map fun a => env.payloadType a t.receiverArgs,
        s!"&({env.storage t.path})", rest⟩
  else
    let type := match args with
      | [(arg, _)] => (env.program.expr arg).toOption.map fun a => env.typeText a.ty
      | _ => none
    ⟨type, env.storage t.path, args⟩

/-- How many arguments the receiver takes as payload. -/
def taken (receiver : Expr) : Nat := if receiver.ty.isSpecialized then 1 else 0

theorem loaded_args (receiver : Expr) (args : List (ExprId × Param)) :
    (t.loaded env receiver args).args = args.drop (taken receiver) := by
  unfold loaded taken
  split
  · cases args <;> rfl
  · rfl

end ExternalTarget

section Parts

variable (t : ExternalTarget) (typeArgs : List Ty)

theorem versionSuffix_notes :
    Notes env (versionSuffix t t.convention (t.bindings typeArgs))
      (String.join ((t.foldedTypes typeArgs).map fun ty => "_" ++ env.typeText ty)) := by
  unfold versionSuffix ExternalTarget.foldedTypes
  split
  · refine (Notes.mapM fun param _ => typeText_notes _).bind ?_
    rw [List.map_map]
    exact .of_pure (by rw [List.map_map]; rfl)
  · exact .of_pure rfl

theorem prototypeTypes_notes (payload : Option String) :
    Notes env (prototypeTypes t t.convention (t.bindings typeArgs) payload)
      (t.listedTypes env typeArgs payload) := by
  refine (Notes.mapM fun param _ => typeText_notes _).bind ?_
  unfold ExternalTarget.listedTypes ExternalTarget.paramTypes
  rw [List.map_map]
  cases t.convention.paramTemplates <;> exact .of_pure rfl

theorem storageOf_notes {arg : ExprId} {a : Expr} (ha : env.At arg a)
    (rest : List ExprId) :
    Notes env (storageOf arg (env.owner t.path)) (t.argumentStorage env (arg :: rest)) := by
  refine (Notes.of_pure (look_of_ok ha)).bind ?_
  rcases a with ⟨id, ty, node⟩
  unfold ExternalTarget.argumentStorage
  dsimp only
  rw [ha]
  cases node with
  | path path | member m => exact .pure _
  | _ => exact (Notes.note _).bind (.pure _)

theorem implicitArgs_notes {args : List ExprId}
    (hargs : ∀ a ∈ args, ∃ x, env.At a x) :
    Notes env (implicitArgs t.convention (env.owner t.path) (env.storage t.path) args)
      (t.implicit env args) := by
  unfold implicitArgs ExternalTarget.implicit
  split
  · rename_i h
    rw [List.isEmpty_iff.1 h]
    exact .pure []
  · dsimp only
    cases args with
    | nil => exact .of_pure rfl
    | cons arg rest =>
      obtain ⟨a, ha⟩ := hargs arg (.head rest)
      exact (storageOf_notes t ha rest).bind (.pure _)

end Parts

/-! ### Loading the receiver -/

theorem loadReceiver_eq (receiver : Expr) (t : ExternalTarget) (convention : Convention)
    (storage : String) (args : List (ExprId × Param)) :
    loadReceiver recur receiver t convention storage args =
      if receiver.ty.isSpecialized then loadSpecialized recur t storage args
      else loadPlain t convention storage args := by
  unfold loadReceiver
  cases receiver.ty <;> rfl

variable {receiver : Expr} {t : ExternalTarget}

/-- A receiver that is not specialized takes no argument, and nothing is emitted for it. -/
theorem eq_of_loadPlain (hty : ¬receiver.ty.isSpecialized = true) {args : List (ExprId × Param)}
    (hargs : ∀ q ∈ args, ∃ a, env.At q.1 a) {loaded : Loaded}
    (h : loadPlain t t.convention (env.storage t.path) args env s = (.ok loaded, u)) :
    loaded = t.loaded env receiver args ∧ u.emission = s.emission := by
  unfold ExternalTarget.loaded
  rw [if_neg hty]
  unfold loadPlain at h
  rcases args with _ | ⟨q, _ | ⟨q', rest⟩⟩
  · cases h; exact ⟨rfl, rfl⟩
  · obtain ⟨a, ha⟩ := hargs q (.head _)
    dsimp only at h
    rw [bind_of_pure (look_of_ok ha)] at h
    obtain ⟨ds, h⟩ := (typeText_notes a.ty).exists_of_bind h
    cases h
    dsimp only
    rw [ha]
    exact ⟨rfl, rfl⟩
  · dsimp only at h
    split at h <;> cases h
    exact ⟨rfl, rfl⟩

theorem eq_of_loadReceiver {args : List (ExprId × Param)}
    (hargs : ∀ q ∈ args, ∃ a, env.At q.1 a) {loaded : Loaded}
    (h : loadReceiver recur receiver t t.convention (env.storage t.path) args env s = (.ok loaded,
      u)) : loaded = t.loaded env receiver args := by
  rw [loadReceiver_eq] at h
  split at h
  · rename_i hty
    unfold ExternalTarget.loaded
    rw [if_pos hty]
    cases args with
    | nil => cases h; rfl
    | cons q rest =>
      obtain ⟨a, ha⟩ := hargs q (.head rest)
      obtain ⟨type, s₁, htype, h⟩ := exists_of_bind h
      cases h
      obtain ⟨a', ha', htype⟩ := exists_payloadType ⟨_, _, htype⟩
      cases ha.symm.trans ha'
      rw [(payloadType_notes a _).eq_of_returns htype]
      dsimp only
      rw [ha]
      rfl
  · rename_i hty
    exact (eq_of_loadPlain hty hargs h).1

/-! ### The call -/

def invocation (function : String) (args : List String) : String := s!"{function}({commaList args})"

namespace ExternalTarget

variable (t : ExternalTarget) (env : Env) (call : Call) (receiver : Expr)

/-- The arguments of the call, each with its parameter. -/
def pairs : List (ExprId × Param) := call.args.zip t.signature.params

/-- The prototype in front of the statement. -/
def prototype : String :=
  Lower.prototype (env.typeText t.signature.returnType) (t.function env call.typeArgs)
    (t.listedTypes env call.typeArgs (t.loaded env receiver (t.pairs call)).type)

/-- What the call passes, for the texts of the arguments after the payload. -/
def passed (texts : List String) : List String :=
  (t.loaded env receiver (t.pairs call)).receiver :: t.implicit env call.args ++ texts

end ExternalTarget

theorem exists_of_callExternal {call : Call}
    (ht : ExternalTarget.of env.program receiver t.signature.name = .ok t)
    (hargs : ∀ a ∈ call.args, ∃ x, env.At a x) {text : String}
    (h : callExternal recur call t.signature.name receiver env s = (.ok text, u)) :
    ∃ s₁ ds s₂ es texts,
      loadReceiver recur receiver t t.convention (env.storage t.path) (t.pairs call) env s =
        (.ok (t.loaded env receiver (t.pairs call)), s₁) ∧
      ((t.loaded env receiver (t.pairs call)).args.mapM fun q => argument recur q.1 q.2) env
        (s₁.note ds) = (.ok texts, s₂) ∧
      u = ⟨s₂.memory.note es, s₂.emission.prepend (t.prototype env call receiver)⟩ ∧
      text = invocation (t.function env call.typeArgs) (t.passed env call receiver texts) := by
  unfold callExternal at h
  rw [bind_of_pure (resolve_of_ok ht), bind_of_pure (receiverOwner_eq t.path)] at h
  have hpairs : ∀ q ∈ t.pairs call, ∃ a, env.At q.1 a := fun q hq =>
    hargs _ (List.of_mem_zip hq).1
  obtain ⟨loaded, s₁, hload, h⟩ := exists_of_bind h
  obtain rfl := eq_of_loadReceiver hpairs hload
  obtain ⟨ds₁, h⟩ := (versionSuffix_notes t call.typeArgs).exists_of_bind h
  obtain ⟨ds₂, h⟩ := (implicitArgs_notes t hargs).exists_of_bind h
  obtain ⟨ds₃, h⟩ := (prototypeTypes_notes t call.typeArgs _).exists_of_bind h
  obtain ⟨texts, s₂, htexts, h⟩ := exists_of_bind h
  obtain ⟨es, h⟩ := (typeText_notes t.signature.returnType).exists_of_bind h
  obtain ⟨_, s₃, hhoist, h⟩ := exists_of_bind h
  cases hhoist
  cases h
  refine ⟨s₁, ds₁ ++ ds₂ ++ ds₃, s₂, es, texts, hload, ?_, rfl, rfl⟩
  rw [← State.note_note, ← State.note_note]
  exact htexts

end Lower

open Lower

/-- The call is one of a method of an external object, and `t` is what it resolves to. It neither
applies a table nor asks for something of a parser's packet. -/
structure Program.CallsExternal (p : Program) (call : Call) (receiver : Expr)
    (t : ExternalTarget) : Prop where
  method : ∃ e m, p.At call.method e ∧ e.node = .member m ∧
    m.member = t.signature.name ∧ p.At m.base receiver
  target : ExternalTarget.of p receiver t.signature.name = .ok t
  table : t.signature.name = "apply" → appliedTable? p receiver = none
  query : (call.args.isEmpty && isPacketQuery t.signature.name) = false

theorem Program.CallsExternal.of {p : Program} {call : Call} {receiver e : Expr} {m : Member}
    {t : ExternalTarget} (he : p.At call.method e) (hm : e.node = .member m)
    (hbase : p.At m.base receiver) (ht : ExternalTarget.of p receiver m.member = .ok t)
    (htable : m.member = "apply" → appliedTable? p receiver = none)
    (hquery : (call.args.isEmpty && isPacketQuery m.member) = false) :
    p.CallsExternal call receiver t := by
  have hname := (found_of_externalTarget ht).name
  refine ⟨⟨e, m, he, hm, hname.symm, hbase⟩, ?_, ?_, ?_⟩ <;> rwa [hname]

namespace Lower

variable {env : Env} {receiver : Expr} {t : ExternalTarget}

theorem isHeader_of_isExternal {d : TypeDecl} (h : d.isExternal = true) : d.isHeader = false := by
  rcases d with ⟨name, body⟩
  cases body with
  | external => rfl
  | _ => cases h

/-- A type of external objects is not a type of headers. -/
theorem isHeaderTy_of_externalOf {p : Program} {ty : Ty} {q : TypeDecl × List Ty}
    (h : externalOf p ty = .ok q) : isHeaderTy p ty = false := by
  cases ty with
  | header id => cases h
  | name id =>
    simp only [externalOf, pure_bind] at h
    split at h
    · cases h
    · rename_i d hd
      simp only [isHeaderTy, hd]
      split at h
      · exact isHeader_of_isExternal (by assumption)
      · cases h
  | _ => rfl

theorem headerMethod?_of_target {p : Program} {method : String}
    (h : ExternalTarget.of p receiver method = .ok t) : headerMethod? p receiver method = none := by
  have hpath := (found_of_externalTarget h).path
  have hty : isHeaderTy p receiver.ty = false := by
    unfold ExternalTarget.of at h
    cases hx : externalOf p receiver.ty with
    | error e => rw [hx] at h; cases h
    | ok q => exact isHeaderTy_of_externalOf hx
  simp [headerMethod?, Expr.headerRef?, Expr.member?, hpath, hty]

theorem expr_of_callsExternal (wf : env.program.WellFormed) {id : ExprId} {e : Expr}
    (he : env.At id e) {call : Call} (hnode : e.node = .call call)
    (h : env.program.CallsExternal call receiver t) (mode : Mode) :
    expr id mode env = callExternal expr call t.signature.name receiver env := by
  obtain ⟨method, m, hmethod, hm, hname, hbase⟩ := h.method
  have hcall : (call.args.isEmpty && isPacketQuery m.member) = false := hname ▸ h.query
  rw [expr_eq_nodeText wf he]
  unfold nodeText
  rw [hnode]
  refine (bind_of_pure (look_of_ok hmethod)).trans ?_
  rw [hm]
  refine (bind_of_pure (look_of_ok hbase)).trans ?_
  refine (bind_of_pure (a := none) ?_).trans ?_
  · exact congrArg (fun x => (pure x : LowerM _) env) (hname ▸ headerMethod?_of_target h.target)
  refine (bind_of_pure (a := none) ?_).trans ?_
  · refine congrArg (fun x => (pure x : LowerM _) env) ?_
    split
    · rename_i happly
      exact h.table (hname ▸ happly)
    · rfl
  · rw [hcall, hname]
    rfl

end Lower

end PacketC
