import PacketC.Lower.Digest
import PacketC.Lower.ExternalCall
import PacketC.Lower.Operator

/-! Calls: the methods of headers and tables, free functions, and external objects. -/

namespace PacketC.Lower

/-! ### Headers and tables -/

inductive HeaderMethod where
  | isValid | setValid | setInvalid

def HeaderMethod.ofName? : String → Option HeaderMethod
  | "isValid" => some .isValid
  | "setValid" => some .setValid
  | "setInvalid" => some .setInvalid
  | _ => none

def HeaderMethod.text (index : String) : HeaderMethod → String
  | .isValid => s!"(pd->headers[{index}].pointer != NULL)"
  | .setValid =>
    s!"pd->headers[{index}].pointer = " ++
      s!"(pd->header_tmp_storage + header_instance_byte_width_summed[{index}])"
  | .setInvalid => s!"pd->headers[{index}].pointer = NULL"

/-- The method of a header that a call on `receiver` names. -/
def headerMethod? (p : Program) (receiver : Expr) (method : String) : Option HeaderMethod :=
  if receiver.headerRef?.isSome || isHeaderTy p receiver.ty then HeaderMethod.ofName? method
  else none

/-- The name of the table that an expression stands for. -/
def appliedTable? (p : Program) (receiver : Expr) : Option String := do
  let path ← receiver.path?
  let id ← path.decl
  match p.decl id with
  | .ok d => if d.isTable then some path.name else none
  | .error _ => none

/-- Methods of a parser's packet that nothing stands for if they are called without arguments. -/
def isPacketQuery (method : String) : Bool :=
  ["lookahead", "advance", "length"].contains method

def callMethod (recur : Recur) (call : Call) (m : Member) (mode : Mode) : LowerM String := do
  let receiver ← look (·.expr m.base)
  match ← ask fun p => headerMethod? p receiver m.member with
  | some method => return method.text (← headerSlot recur receiver mode)
  | none =>
    match ← ask fun p => if m.member = "apply" then appliedTable? p receiver else none with
    | some table => return s!"{table}_apply({Target.stdArgs})"
    | none =>
      if call.args.isEmpty && isPacketQuery m.member then
        let owner ← ask fun p => (p.typeName? receiver.ty).getD "extern"
        unsupported .unsupportedConstruct s!"{owner}.{m.member} is not supported yet!"
      else callExternal recur call m.member receiver

/-! ### Free functions -/

/-- Metadata is not passed to functions. -/
def isMetadataTy (p : Program) (ty : Ty) : Bool :=
  match ty.decl with
  | none => false
  | some id =>
    match p.typeDecl id with
    | .ok t => t.isMetadata
    | .error _ => false

def functionArgument (recur : Recur) (arg : ExprId) : LowerM String := do
  let a ← look (·.expr arg)
  match a.fieldRef? with
  | some ref =>
    let l ← look (Program.packetField ref)
    return s!"handle(header_desc_ins(pd, {l.headerId}), {l.fieldInstance})"
  | none => recur arg .value

/-- The arguments that are passed, each with the type of its parameter. -/
def functionArguments (recur : Recur) : List (ExprId × Param) → LowerM (List (String × String))
  | [] => return []
  | (arg, param) :: rest => do
    if ← ask fun p => isMetadataTy p param.ty then functionArguments recur rest
    else
      let text ← functionArgument recur arg
      let type ← typeText param.ty
      return (text, type) :: (← functionArguments recur rest)

/-- The signature of the function that a path names. -/
def functionSignature? (p : Program) (path : Path) : Except ProgramError (Option Signature) :=
  match path.decl with
  | none => .ok none
  | some id => (p.decl id).map Decl.signature?

def callFunction (recur : Recur) (id : ExprId) (call : Call) (path : Path) : LowerM String := do
  if path.name = "digest" then Digest.expressionText recur id call
  else
    match ← look fun p => functionSignature? p path with
    | none =>
      if call.args.isEmpty then
        hoist (prototype "void" path.name [Target.shortParams])
        return s!"{path.name}({Target.shortArgs})"
      else throw (.unresolvedExternal s!"no declaration for function {path.name}")
    | some signature =>
      let args ← functionArguments recur (call.args.zip signature.params)
      let returnType ← typeText signature.returnType
      hoist (prototype returnType path.name (args.map Prod.snd ++ [Target.shortParams]))
      return s!"{path.name}({commaList (args.map Prod.fst ++ [Target.shortArgs])})"

def callText (recur : Recur) (id : ExprId) (call : Call) (mode : Mode) : LowerM String := do
  let method ← look (·.expr call.method)
  match method.node with
  | .member m => callMethod recur call m mode
  | .path path => callFunction recur id call path
  | other => throw (.unresolvedExternal s!"cannot call a {other.name}")

end PacketC.Lower
