import PacketC.Lower.Argument
import PacketC.Target.Convention

/-! Calls of methods of external objects. Each becomes a call of a function named for the object's
type and the method, with a prototype in front of the statement. -/

namespace PacketC.Lower

def fail {α : Type} (what : String) : Except LowerError α := .error (.unresolvedExternal what)

/-- The declaration of an external type, and the arguments that the type is given. -/
def externalOf (p : Program) (ty : Ty) : Except LowerError (TypeDecl × List Ty) := do
  let (id, args) ← match ty with
    | .external id | .name id => pure (id, [])
    | .specialized base args => pure (base, args)
    | ty => fail s!"receiver of type {ty.text} is not an extern instance"
  match p.typeDecl id with
  | .error e => .error (.program e)
  | .ok t =>
    if t.isExternal then return (t, args) else fail s!"{t.name} is not an extern type"

/-- What a call is made of, before its arguments are written. -/
structure ExternalTarget where
  decl : TypeDecl
  receiverArgs : List Ty
  signature : Signature
  path : Path

namespace ExternalTarget

/-- The method is looked up before the receiver has to have a name. -/
def of (p : Program) (receiver : Expr) (method : String) : Except LowerError ExternalTarget := do
  let (decl, receiverArgs) ← externalOf p receiver.ty
  match decl.method? method with
  | none => fail s!"extern {decl.name} has no method {method}"
  | some signature =>
    match receiver.node with
    | .path path => return ⟨decl, receiverArgs, signature, path⟩
    | other =>
      fail s!"{decl.name}.{method} called on a {other.name}, expected a named instance"

/-- What the type parameters stand for; those of the method win, and of them the last one. -/
def bindings (t : ExternalTarget) (typeArgs : List Ty) : List (String × Ty) :=
  (t.decl.typeParams.zip t.receiverArgs ++ t.signature.typeParams.zip typeArgs).reverse

end ExternalTarget

def instantiate (bindings : List (String × Ty)) : Ty → Ty
  | .var x => (bindings.lookup x).getD (.var x)
  | ty => ty

/-- Where the receiver is stored: with the locals of the block, or with the shared state. -/
def receiverOwner (path : Path) : LowerM String := do
  match path.decl with
  | none => return "global_smem."
  | some decl => return if ← isLocal decl then "local_vars->" else "global_smem."

/-- The payload of a call: its type, the receiver as it is passed, and the remaining arguments. -/
structure Loaded where
  type : Option String
  receiver : String
  args : List (ExprId × Param)

/-- A specialized receiver takes its first argument as payload. -/
def loadSpecialized (recur : Recur) (t : ExternalTarget) (storage : String)
    (args : List (ExprId × Param)) : LowerM Loaded := do
  match args with
  | [] => return ⟨none, storage, []⟩
  | (arg, param) :: rest =>
    let type ← payload recur arg param storage t.receiverArgs
    return ⟨some type, s!"&({storage})", rest⟩

/-- Another receiver has at most one argument, unless the method has a convention of its own. -/
def loadPlain (t : ExternalTarget) (convention : Convention) (storage : String)
    (args : List (ExprId × Param)) : LowerM Loaded := do
  match args with
  | [] => return ⟨none, storage, args⟩
  | [(arg, _)] =>
    let ty := (← look (·.expr arg)).ty
    return ⟨some (← typeText ty), storage, args⟩
  | _ =>
    if convention = .plain then
      throw (.invalidArity
        (s!"Extern {t.decl.name}.{t.signature.name} in variable {t.path.name} has " ++
          s!"{args.length} parameters, currently only 0 or 1 are supported"))
    else return ⟨none, storage, args⟩

def loadReceiver (recur : Recur) (receiver : Expr) (t : ExternalTarget) (convention : Convention)
    (storage : String) (args : List (ExprId × Param)) : LowerM Loaded :=
  match receiver.ty with
  | .specialized .. => loadSpecialized recur t storage args
  | _ => loadPlain t convention storage args

/-- The types that tell this version of the function from others. -/
def versionSuffix (t : ExternalTarget) (convention : Convention)
    (bindings : List (String × Ty)) : LowerM String := do
  if convention.foldTypeArgs then
    let params := convention.typeParamPositions.filterMap fun i => t.signature.params[i]?
    let types ← params.mapM fun param => typeText (instantiate bindings param.ty)
    return String.join (types.map fun ty => "_" ++ ty)
  else return ""

/-- The arguments that are passed unasked. -/
def implicitArgs (convention : Convention) (owner storage : String) (args : List ExprId) :
    LowerM (List String) := do
  if convention.implicitArgs.isEmpty then return []
  else
    let storage ← match args with
      | [] => pure storage
      | arg :: _ => storageOf arg owner
    return convention.implicitArgs.map (Convention.fillStorage storage)

/-- The parameter types of the prototype. -/
def prototypeTypes (t : ExternalTarget) (convention : Convention)
    (bindings : List (String × Ty)) (payloadType : Option String) : LowerM (List String) := do
  let declared ← t.signature.params.mapM fun param => typeText (instantiate bindings param.ty)
  let types := payloadType.toList ++ declared
  match convention.paramTemplates with
  | none => return types
  | some templates => return templates.map fun template => Convention.fill template types

def commaList (items : List String) : String := String.intercalate ", " items

def prototype (returnType function : String) (paramTypes : List String) : String :=
  s!"extern {returnType} {function}({commaList paramTypes});"

def callExternal (recur : Recur) (call : Call) (method : String) (receiver : Expr) :
    LowerM String := do
  let t ← resolve fun p => ExternalTarget.of p receiver method
  let owner ← receiverOwner t.path
  let storage := owner ++ t.path.name
  let convention := Convention.of t.decl.name method
  let bindings := t.bindings call.typeArgs
  let loaded ← loadReceiver recur receiver t convention storage (call.args.zip t.signature.params)
  let suffix ← versionSuffix t convention bindings
  let implicit ← implicitArgs convention owner storage call.args
  let paramTypes ← prototypeTypes t convention bindings loaded.type
  let args ← loaded.args.mapM fun (arg, param) => argument recur arg param
  let function := s!"extern_{t.decl.name}_{method}{suffix}"
  let returnType ← typeText t.signature.returnType
  hoist (prototype returnType function paramTypes)
  return s!"{function}({commaList (loaded.receiver :: implicit ++ args)})"

end PacketC.Lower
