import PacketC.Lower.Expr

/-! The text of declarations. -/

namespace PacketC.Lower

/-- A variable; the data of a header is kept by the parser and needs none. -/
def variableDecl (recur : Recur) (ty : Ty) (name : String) (initializer : Option ExprId) :
    LowerM String := do
  if ← ask fun p => isHeaderTy p ty then return ""
  else if ty = .bool then
    let value ← match initializer with
      | some e => recur e .expanded
      | none => pure "false"
    return s!"bool {name} = {value};"
  else
    let declared ← declaredText false ty name
    match initializer with
    | none => return declared ++ ";"
    | some e =>
      let value ← recur e .expanded
      match bufferWidth? ty with
      | some width => return s!"{declared};\nmemcpy({name}, {value}, {byteCount width});"
      | none => return s!"{declared} = {value};"

/-- An instance of an external type, with the call that sets it up. -/
def instanceDecl (ty : Ty) (name : String) : LowerM String := do
  let base ← match ty with
    | .external id => (·.name) <$> look (·.typeDecl id)
    | _ => typeTextIn TypeForm.parameter.unresolved ty
  let type := base ++ "_t"
  hoist s!"extern void {type}_init({type}*);"
  return s!"{type} {name};\n{type}_init(&{name});"

def constDecl (recur : Recur) (ty : Ty) (name : String) (value : ExprId) : LowerM String := do
  let declared ← declaredText true ty name
  let e ← look (·.expr value)
  let text ← match e.node, bufferWidth? ty with
    | .constant n base, some width => pure (Literal.byteArray base.toNat n (byteCount width))
    | _, _ => recur value .value
  return s!"const {declared} = {text};"

/-- A declaration, under another name if one is given. -/
def declaration (recur : Recur) (id : DeclId) (rename : Option String) : LowerM String := do
  let d ← look (·.decl id)
  let name := rename.getD d.name
  match d.body with
  | .var ty initializer => variableDecl recur ty name initializer
  | .inst ty _ => instanceDecl ty name
  | .param ty _ => return (← typeText ty) ++ " " ++ name
  | .const ty value => constDecl recur ty name value
  | .function _ =>
    report .unsupportedConstruct "formatting declaration"
      s!"Declaration of function {d.name} is not supported yet!"
    return ""
  | .table | .action => return "/* nothing */"

end PacketC.Lower
