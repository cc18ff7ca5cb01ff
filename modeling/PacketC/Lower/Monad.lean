import PacketC.Lower.Error
import PacketC.Lower.TypeText
import PacketC.Output.Emission
import PacketC.Output.NameSupply

/-! The state of the generator while it lowers one statement. What it has done up to an error is
kept: the names it handed out, the buffers it assembled, and the diagnostics. -/

namespace PacketC

/-- What is remembered from one statement to the next. -/
structure Memory where
  names : NameSupply
  /-- The expressions whose buffers or keys have been written. -/
  generated : List ExprId
  diagnostics : List Diagnostic

namespace Memory

def empty : Memory := ⟨.empty, [], []⟩

def note (ds : List Diagnostic) (m : Memory) : Memory :=
  { m with diagnostics := m.diagnostics ++ ds }

def isGenerated (m : Memory) (id : ExprId) : Bool := m.generated.contains id

end Memory

/-- How an expression is written. -/
structure Mode where
  /-- A field of a header is read; otherwise it is named. -/
  asValue : Bool
  /-- A name that is not local is a member of the parameters. -/
  expandParameters : Bool
  deriving DecidableEq

namespace Mode

def value : Mode := ⟨true, false⟩

def handle : Mode := ⟨false, false⟩

def expanded : Mode := ⟨true, true⟩

def handleExpanded : Mode := ⟨false, true⟩

/-- The parts of an expression are always read. -/
def child (m : Mode) : Mode := { m with asValue := true }

end Mode

namespace Lower

/-- What stays the same in a statement: the scope of its types and the block that it is in. -/
structure Env extends TypeScope where
  block : Option BlockId

structure State where
  memory : Memory
  emission : Emission

namespace State

abbrev note (s : State) (ds : List Diagnostic) : State := { s with memory := s.memory.note ds }

abbrev withNames (s : State) (names : NameSupply) : State :=
  { s with memory := { s.memory with names := names } }

abbrev mark (s : State) (id : ExprId) : State :=
  { s with memory := { s.memory with generated := id :: s.memory.generated } }

abbrev prepend (s : State) (code : String) : State :=
  { s with emission := s.emission.prepend code }

abbrev append (s : State) (code : String) : State := { s with emission := s.emission.append code }

abbrev push (s : State) : State := { s with emission := s.emission.push }

abbrev pop (s : State) : State := { s with emission := s.emission.pop.2 }

end State

end Lower

abbrev LowerM (α : Type) := ReaderT Lower.Env (ExceptT LowerError (StateM Lower.State)) α

namespace Lower

/-- Lowers the expressions that a node refers to. -/
abbrev Recur := ExprId → Mode → LowerM String

variable {α : Type}

/-! ### The program -/

/-- What is found out from the program, or the reason why lowering stops. -/
def resolve (f : Program → Except LowerError α) : LowerM α := do
  match f (← read).program with
  | .ok a => return a
  | .error e => throw e

/-- A lookup whose failure is a fault of the program. -/
def look (lookup : Program → Except ProgramError α) : LowerM α :=
  resolve fun p => (lookup p).mapError .program

/-- What a function of the program yields. -/
def ask (view : Program → α) : LowerM α := do
  return view (← read).program

def config : LowerM Config := do
  return (← read).config

def traces : LowerM Bool := do
  return (← config).emitDebugTraces

/-- The declaration is a local of the block that the statement is in. -/
def isLocal (id : DeclId) : LowerM Bool := do
  let env ← read
  return env.block.any fun block => env.program.isLocalOf block id

/-- A type of headers, by itself or by name. -/
def isHeaderTy (p : Program) : Ty → Bool
  | .header _ => true
  | .name id =>
    match p.typeDecl id with
    | .ok t => t.isHeader
    | .error _ => false
  | _ => false

/-! ### Diagnostics -/

def note (ds : List Diagnostic) : LowerM Unit := modify (·.note ds)

def report (category : Category) (stage message : String) : LowerM Unit :=
  note [.error category stage message]

def warn (stage message : String) : LowerM Unit := note [.warning stage message]

/-! ### Names -/

def freshName (hint : String) : LowerM String :=
  modifyGet fun s =>
    let (name, names) := s.memory.names.fresh hint
    (name, s.withNames names)

/-- The name of an expression under the given hint. -/
def nameOf (hint : String) (id : ExprId) : LowerM String :=
  modifyGet fun s =>
    let (name, names) := s.memory.names.named hint id.text
    (name, s.withNames names)

/-- Marks an expression as written; tells whether it had not been. -/
def firstTime (id : ExprId) : LowerM Bool :=
  modifyGet fun s =>
    if s.memory.isGenerated id then (false, s)
    else (true, s.mark id)

/-! ### Code around the statement -/

def hoist (code : String) : LowerM Unit := modify (·.prepend code)

def defer (code : String) : LowerM Unit := modify (·.append code)

/-- Runs an action in a frame of its own, which is closed also when the action fails. -/
def framed (x : LowerM α) : LowerM (α × Frame) := fun env => ExceptT.mk do
  modify (·.push)
  let result ← (x env).run
  let frame ← modifyGet fun s => (s.emission.pop.1, s.pop)
  return result.map fun a => (a, frame)

/-! ### Types -/

/-- The text of a type, with its notes recorded. -/
def typeTextIn (form : TypeForm) (ty : Ty) : LowerM String := do
  let rendered := ty.render (← read).toTypeScope form
  note rendered.notes
  return rendered.text

def typeText (ty : Ty) : LowerM String := typeTextIn .parameter ty

/-- The declaration of a name with the given type. -/
def declaredText (resolveNames : Bool) (ty : Ty) (name : String) : LowerM String := do
  return Ty.declare (← typeTextIn ⟨resolveNames, true⟩ ty) name

end Lower

end PacketC
