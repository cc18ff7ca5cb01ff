import PacketC.Lower.FieldAccess
import PacketC.Lower.Operator

/-! Transitions of a parser: a variable for each key, then a chain of tests over the cases. -/

namespace PacketC.Lower

def keyStage : String := "formatting select expression"

def caseStage : String := "formatting a select case"

/-- Declares the variable of a key. -/
def declareKey (recur : Recur) (key : ExprId) (name : String) : LowerM Unit := do
  let k ← look (·.expr key)
  match k.ty with
  | .bits width _ =>
    if width.toNat ≤ 32 then
      let ty ← typeText k.ty
      let value ← recur key .value
      hoist s!"{ty} {name} = {value};"
    else if width.toNat % 8 = 0 then
      match k.fieldRef? with
      | some ref =>
        let l ← look (Program.packetField ref)
        hoist (packetBuffer l name (width.toNat / 8))
      | none =>
        report .unsupportedConstruct keyStage
          s!"Select on a {width.toNat}-bit {k.node.name} is not supported!"
    else report .unsupportedWidth keyStage s!"Select on type {k.ty.text} is not supported!"
  | _ => report .unsupportedWidth keyStage s!"Select on type {k.ty.text} is not supported!"

/-- The variables of the keys, declared if `declare` says so. -/
def keyNames (recur : Recur) (declare : Bool) : List ExprId → LowerM (List String)
  | [] => return []
  | key :: rest => do
    let name ← nameOf "value" key
    if declare then declareKey recur key name
    return name :: (← keyNames recur declare rest)

/-- The test of a key above 32 bits: its bytes against those of a constant. -/
def wideCondition (keyTy : Ty) (width : Nat) (keyName : String) (c : Expr) : LowerM String := do
  match c.node, width % 8 with
  | .constant value base, 0 =>
    let bytes := width / 8
    let name ← nameOf "value" c.id
    hoist s!"uint8_t {name}[{bytes}] = {Literal.byteArray base.toNat value bytes};"
    return s!"memcmp({keyName}, {name}, {bytes}) == 0"
  | _, _ =>
    report .unsupportedConstruct caseStage
      s!"Select statement cases of type {c.node.name} on {keyTy.text} is not supported!"
    return "false"

/-- The test of a key that fits a scalar. -/
def narrowCondition (recur : Recur) (keyTy : Ty) (keyName : String) (component : ExprId)
    (c : Expr) : LowerM String := do
  match c.node with
  | .range low high =>
    let low ← recur low .value
    let high ← recur high .value
    return s!"{low} <= {keyName} && {keyName} <= {high}"
  | .mask value mask =>
    let value ← recur value .value
    let mask ← recur mask .value
    return s!"({value} & {mask}) == ({keyName} & {mask})"
  | other =>
    if !c.isConstant then
      warn caseStage
        s!"Select statement cases of type {other.name} on {keyTy.text} might not work properly."
    let value ← recur component .value
    return s!"{keyName} == {value}"

/-- The test of one key; the default matches anything and needs none. -/
def keyCondition (recur : Recur) (key : ExprId) (keyName : String) (component : ExprId) :
    LowerM (Option String) := do
  let k ← look (·.expr key)
  let c ← look (·.expr component)
  let width := k.ty.width.getD 0
  match c.node with
  | .default => return none
  | _ =>
    if 32 < width then return some (← wideCondition k.ty width keyName c)
    else return some (← narrowCondition recur k.ty keyName component c)

/-- The parts of a keyset, one for each key. -/
def keysetParts (p : Program) (keyset : ExprId) : Except ProgramError (List ExprId) := do
  match (← p.expr keyset).node with
  | .list items => return items
  | _ => return [keyset]

/-- The tests of all keys that need one. -/
def keyConditions (recur : Recur) : List ((ExprId × String) × ExprId) → LowerM (List String)
  | [] => return []
  | ((key, name), component) :: rest => do
    let condition ← keyCondition recur key name component
    return condition.toList ++ (← keyConditions recur rest)

def branch (recur : Recur) (keys : List (ExprId × String)) (case : SelectArm) :
    LowerM String := do
  let parts ← look fun p => keysetParts p case.keyset
  let conditions ← keyConditions recur (keys.zip parts)
  let test :=
    if conditions.isEmpty then "true /* default */" else String.intercalate " && " conditions
  return s!"if({test})\x7b{Target.parserStateCall case.state}\x7d"

/-- The variables are declared where the transition is met first. -/
def transition (recur : Recur) (id : ExprId) (keys : List ExprId) (cases : List SelectArm) :
    LowerM String := do
  let declare ← firstTime id
  let names ← keyNames recur declare keys
  let branches ← cases.mapM (branch recur (keys.zip names))
  return String.intercalate "\nelse\n" branches

end PacketC.Lower
