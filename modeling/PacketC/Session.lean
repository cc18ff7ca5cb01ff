import PacketC.Lower.Statement

/-! A session: the settings, the aliases, and what is remembered from one call to the next. A call
that fails leaves a diagnostic, and the session can go on. -/

namespace PacketC

structure Session where
  config : Config
  aliases : Aliases
  memory : Memory

namespace Session

def start (config : Config) : Session := ⟨config, .empty, .empty⟩

def scope (s : Session) (p : Program) : TypeScope := ⟨p, s.config, s.aliases⟩

abbrev env (s : Session) (p : Program) (block : Option BlockId) : Lower.Env := ⟨s.scope p, block⟩

/-- There is no code around a call to begin with. -/
abbrev initial (s : Session) : Lower.State := ⟨s.memory, .empty⟩

/-- Runs one call. -/
def run (s : Session) (p : Program) (block : Option BlockId) (kind : FragmentKind) (stage : String)
    (x : LowerM String) : Except LowerError Fragment × Session :=
  let (result, state) := (x (s.env p block)).run s.initial
  match result with
  | .ok text =>
    let around := state.emission.gathered
    (.ok ⟨kind, around.pre, text, around.post⟩, { s with memory := state.memory })
  | .error e => (.error e, { s with memory := state.memory.note [e.diagnostic stage] })

def lowerStatement (s : Session) (p : Program) (stmt : Statement) (block : Option BlockId) :
    Except LowerError Fragment × Session :=
  s.run p block .statements "lowering statement" (Lower.statement Lower.expr stmt)

def lowerExpression (s : Session) (p : Program) (id : ExprId) (block : Option BlockId)
    (mode : Mode) : Except LowerError Fragment × Session :=
  s.run p block .expression "lowering expression" (Lower.expr id mode)

def lowerDeclaration (s : Session) (p : Program) (id : DeclId) (block : Option BlockId)
    (rename : Option String) : Except LowerError Fragment × Session :=
  s.run p block .statements "formatting declaration" (Lower.declaration Lower.expr id rename)

def note (s : Session) (ds : List Diagnostic) : Session := { s with memory := s.memory.note ds }

def typeText (s : Session) (p : Program) (ty : Ty) (form : TypeForm) : String × Session :=
  let rendered := ty.render (s.scope p) form
  (rendered.text, s.note rendered.notes)

/-- The declaration of a name with the given type. -/
def declaredText (s : Session) (p : Program) (ty : Ty) (name : String) : String × Session :=
  let (text, s) := s.typeText p ty .declaration
  (Ty.declare text name, s)

/-- The alias that is replaced, if there is one. -/
def setAlias (s : Session) (name text : String) : Option String × Session :=
  (s.aliases.find? name, { s with aliases := s.aliases.insert name text })

/-- The alias that is removed, if there is one. -/
def eraseAlias (s : Session) (name : String) : Option String × Session :=
  (s.aliases.find? name, { s with aliases := s.aliases.erase name })

def diagnostics (s : Session) : List Diagnostic := s.memory.diagnostics

/-- All diagnostics so far, which the session then forgets. -/
def drain (s : Session) : List Diagnostic × Session :=
  (s.diagnostics, { s with memory := { s.memory with diagnostics := [] } })

def names (s : Session) : NameSupply := s.memory.names

def allocate (s : Session) (hint : String) (id : Option String) : String × Session :=
  let (name, names) := s.names.allocate hint id
  (name, { s with memory := { s.memory with names := names } })

def isGenerated (s : Session) (id : ExprId) : Bool := s.memory.isGenerated id

end Session

end PacketC
