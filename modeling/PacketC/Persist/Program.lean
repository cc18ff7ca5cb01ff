import PacketC.Json.Printer
import PacketC.Json.Reader
import PacketC.Persist.Decl
import PacketC.Persist.Expr
import PacketC.Program.Validate

/-! The text of a program: an object with the five arenas, written in the indented form. Reading a
text checks the program as well. -/

namespace PacketC.Program

def toJson (p : Program) : Json :=
  .record [("exprs", .list Expr.toJson p.exprs.toList), ("decls", .list Decl.toJson p.decls.toList),
    ("type_decls", .list TypeDecl.toJson p.typeDecls.toList),
    ("header_instances", .list HeaderInstance.toJson p.headers.toList),
    ("blocks", .list Block.toJson p.blocks.toList)]

def ofJson : Decoder Program := fun d j => do
  let r ← Decoder.fields ["exprs", "decls", "type_decls", "header_instances", "blocks"] d j
  let exprs ← r.need "exprs" (Decoder.list Expr.ofJson)
  let decls ← r.need "decls" (Decoder.list Decl.ofJson)
  let typeDecls ← r.need "type_decls" (Decoder.list TypeDecl.ofJson)
  let headers ← r.need "header_instances" (Decoder.list HeaderInstance.ofJson)
  let blocks ← r.need "blocks" (Decoder.list Block.ofJson)
  return ⟨exprs.toArray, decls.toArray, typeDecls.toArray, headers.toArray, blocks.toArray⟩

def render (p : Program) : String := p.toJson.pretty

/-- The program that a tree describes, without a check of its arenas. -/
def ofTree (j : Json) : Except ProgramError Program :=
  match ofJson Json.maxDepth j with
  | some p => .ok p
  | none => .error .malformedText

/-- The program that a text describes, without a check of its arenas. -/
def readUnchecked (s : String) : Except ProgramError Program :=
  match Json.parse? s with
  | some j => ofTree j
  | none => .error .malformedText

def checked (p : Program) : Except ProgramError Program := do
  p.validate
  return p

def read (s : String) : Except ProgramError Program := do
  checked (← readUnchecked s)

end PacketC.Program
