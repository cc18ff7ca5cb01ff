import PacketC.Lower.Decl
import PacketC.Lower.Store
import PacketC.Output.Fragment
import PacketC.Program.Statement

/-! The text of statements. The code that a nested statement needs before and after it stays with
it, in the body that it belongs to. -/

namespace PacketC.Lower

/-! ### Calls -/

/-- The call sends a header to the packet that is put together. -/
def sendsHeader (p : Program) (packetOutType : String) (method : Expr) : Bool :=
  match method.member? with
  | none => false
  | some m =>
    m.member == "emit" &&
      match p.expr m.base with
      | .ok receiver => p.typeName? receiver.ty == some packetOutType
      | .error _ => false

/-- The header goes to the end of the headers that are put out. -/
def sendHeader (recur : Recur) (args : List ExprId) : LowerM String := do
  match args with
  | [] => throw (.invalidArity "emit expects the header to emit")
  | arg :: _ =>
    let index ← headerSlot recur (← look (·.expr arg)) .value
    return Text.unlines ["pd->is_emit_reordering = true;",
      s!"pd->header_reorder[pd->emit_hdrinst_count] = {index};", "++pd->emit_hdrinst_count;"]

/-- The state that a method of a header leaves it in. -/
def validity? : String → Option String
  | "setValid" => some "valid"
  | "setInvalid" => some "invalid"
  | _ => none

/-- A trace for a call that changes whether a header is valid. -/
def validityTrace (method : Expr) : LowerM (List String) := do
  match method.member?, ← traces with
  | some m, true =>
    match validity? m.member with
    | none => return []
    | some state =>
      let receiver ← look (·.expr m.base)
      let header ← match receiver.headerRef? with
        | some id => (·.name) <$> look (·.header id)
        | none => pure m.member
      return [s!"debug(\"   :: Setting header instance \" T4LIT({header},header) \" as \" " ++
        s!"T4LIT({state},success) \"\\n\");"]
  | _, _ => return []

/-- The call itself; one that comes out empty is marked. -/
def callLine (recur : Recur) (id : ExprId) (e : Expr) : LowerM String := do
  let text ← recur id .value
  if Text.isBlank text then
    warn "generating method call statement" s!"Invalid method call {e.node.name}"
    return "/* unhandled method call */"
  else return text ++ ";"

def runCall (recur : Recur) (id : ExprId) : LowerM String := do
  let e ← look (·.expr id)
  match e.node with
  | .call call =>
    let method ← look (·.expr call.method)
    if (method.path?.map Path.name) = some "digest" then Digest.statementText recur e.id call
    else
      let packetOutType := (← config).packetOutType
      if ← ask fun p => sendsHeader p packetOutType method then sendHeader recur call.args
      else
        let trace ← validityTrace method
        let line ← callLine recur id e
        return Text.unlines (trace ++ [line])
  | other =>
    throw (.unsupportedConstruct s!"method call statement around a {other.name}")

/-! ### Blocks -/

/-- The lock of the control that the statement is in. -/
def controlLock : LowerM (Option String) := do
  let env ← read
  match env.block.bind fun id => env.program.blocks[id.index]? with
  | some ⟨_, typeName, .control, _⟩ => return some (Target.lockName typeName)
  | _ =>
    warn "generating atomic block" "Atomic block outside of a control; no lock is taken"
    return none

/-- The parts of a block, between taking and giving back the lock if there is one. -/
def blockText (c : Config) (lock : Option String) (parts : List String) : String :=
  match lock with
  | none => stacked parts
  | some lock =>
    stacked (s!"{c.lockMacro}({lock})" :: parts ++ [s!"{c.unlockMacro}({lock})"])

/-- A body with the code around it; a body without any code is an empty statement. -/
def bodyText (text : String) (frame : Frame) : String :=
  let code := stacked (frame.pre ++ text :: frame.post)
  if code.isEmpty then ";" else code

/-- Runs an action in a frame of its own, and puts the frame's code around its text. -/
def enclosed (x : LowerM String) : LowerM String := do
  let (text, frame) ← framed x
  return bodyText text frame

/-! ### Branches -/

def condText (style : Indentation) (condition ifTrue ifFalse : String) : String :=
  let l := (Layout.empty style).line s!"if( {condition} ) \x7b"
  let l := (l.indent.text ifTrue).dedent.line "\x7d else \x7b"
  ((l.indent.text ifFalse).dedent.line "\x7d").finish

/-- The label of a case, or `none` for the default. -/
def caseLabel (recur : Recur) (id : ExprId) : LowerM (Option String) := do
  let e ← look (·.expr id)
  match e.node with
  | .default => return none
  | other =>
    let text ← recur id .value
    if text.isEmpty then
      report .unsupportedConstruct "generating switch statement"
        s!"Switch label of kind {other.name} is not supported"
    return some text

structure Arm where
  label : Option String
  body : String

def Arm.head (a : Arm) : String :=
  match a.label with
  | none => "default:"
  | some label => s!"case {label}:"

def Arm.layout (l : Layout) (a : Arm) : Layout :=
  ((l.line a.head).indent.text a.body |>.line "break;").dedent

/-- The arms in their order, and an empty default if none of them is the default. -/
def switchText (style : Indentation) (selector : String) (arms : List Arm) : String :=
  let body := fun l =>
    let l := arms.foldl Arm.layout l
    if arms.any fun a => a.label.isNone then l else l.line "default: \x7b\x7d"
  ((Layout.empty style).block s!"switch({selector})" body).finish

/-! ### Statements -/

mutual

/-- The branches of a conditional come before its condition. -/
def statement (recur : Recur) : Statement → LowerM String
  | .assign left right => assign recur left right
  | .block components annotations => do
    let lock ← if annotations.contains Statement.atomicMark then controlLock else pure none
    let parts ← blockParts recur components
    return blockText (← config) lock parts
  | .cond condition ifTrue ifFalse => do
    let t ← nested recur ifTrue
    let f ← nested recur ifFalse
    let c ← recur condition .value
    return condText (← config).indentation (if Text.isBlank c then "true" else c) t f
  | .call e => runCall recur e
  | .switch selector cases => do
    let s ← recur selector .value
    let arms ← switchArms recur cases
    return switchText (← config).indentation s arms
  | .decl id => declaration recur id none
  | .empty => return ";"

def blockParts (recur : Recur) : List Statement → LowerM (List String)
  | [] => return []
  | s :: rest => do
    let part ← enclosed (statement recur s)
    return part :: (← blockParts recur rest)

def nested (recur : Recur) : Option Statement → LowerM String
  | none => return ";"
  | some s => enclosed (statement recur s)

def switchArms (recur : Recur) : List (SwitchArm Statement) → LowerM (List Arm)
  | [] => return []
  | ⟨label, body⟩ :: rest => do
    let label ← caseLabel recur label
    let body ← nested recur body
    return ⟨label, body⟩ :: (← switchArms recur rest)

end

end PacketC.Lower
