import PacketC.Config
import PacketC.Diagnostic
import PacketC.Lower.Aliases
import PacketC.Program.Basic
import PacketC.Target.Container
import PacketC.Text.Words

/-! The text of types in the target. A type without a representation is written as a marked `int`,
and a diagnostic tells why. -/

namespace PacketC

/-- What the text of a type depends on. -/
structure TypeScope where
  program : Program
  config : Config
  aliases : Aliases

structure TypeForm where
  /-- Aliases stand in for names. -/
  resolveNames : Bool
  /-- Wide bit strings are arrays and not pointers. -/
  useArray : Bool
  deriving DecidableEq

namespace TypeForm

def parameter : TypeForm := ⟨true, false⟩

def declaration : TypeForm := ⟨true, true⟩

def unresolved (s : TypeForm) : TypeForm := { s with resolveNames := false }

end TypeForm

/-- A text, with what was noted while it was made. -/
structure Noted where
  text : String
  notes : List Diagnostic
  deriving DecidableEq

namespace Noted

def plain (text : String) : Noted := ⟨text, []⟩

end Noted

namespace Ty

def textStage : String := "formatting type"

/-- The one text for all types that have no representation. -/
def unknownText (ty : Ty) (reason : String) : Noted where
  text := s!"int /* generated in place of unknown type {ty.shapeName} */"
  notes := [.error .unsupportedConstruct textStage
    s!"Type {ty.shapeName} ({ty.text}) is not supported yet: {reason}"]

def bitsText (form : TypeForm) (width : Nat) (signed : Bool) : String :=
  let stem := if signed then "int" else "uint"
  match (Container.ofWidth width).bits? with
  | some size => s!"{stem}{size}_t"
  | none => if form.useArray then s!"{stem}8_t [{byteCount width}]" else s!"{stem}8_t*"

/-- The type of a struct ends in `_s` where its declared name ends in `_t`. -/
def structName (name : String) : String :=
  match name.toList.reverse with
  | 't' :: '_' :: rest => String.ofList rest.reverse ++ "_s"
  | _ => name

/-- An enumeration, under the name it has in the target. -/
def enumText (s : TypeScope) (ty : Ty) (id : TypeId) : Noted :=
  match s.program.typeDecl id with
  | .error e => unknownText ty e.message
  | .ok t =>
    match t.cName? with
    | some cName => .plain ("enum " ++ cName)
    | none => unknownText ty "enum type without an enum declaration"

def nameText (s : TypeScope) (form : TypeForm) (ty : Ty) (id : TypeId) : Noted :=
  match s.program.typeDecl id with
  | .error e => unknownText ty e.message
  | .ok t =>
    match t.cName? with
    | some cName => .plain ("enum " ++ cName)
    | none =>
      .plain (if form.resolveNames then (s.aliases.find? t.name).getD t.name else t.name)

/-- A specialized type is named for its first argument. -/
def render (s : TypeScope) (form : TypeForm) : Ty → Noted
  | .void => .plain "void"
  | .bool => .plain "bool"
  | .bits width signed => .plain (bitsText form width.toNat signed)
  | .varbits width =>
    .plain s!"uint8_t [{byteCount width.toNat}] /* preliminary type for varbits */"
  | .enum id => enumText s (.enum id) id
  | .error id => enumText s (.error id) id
  | .name id => nameText s form (.name id) id
  | .external id =>
    match s.program.typeDecl id with
    | .error e => unknownText (.external id) e.message
    | .ok t => .plain (t.name ++ "_t")
  | .struct id =>
    match s.program.typeDecl id with
    | .error e => unknownText (.struct id) e.message
    | .ok t => .plain ("struct " ++ structName t.name)
  | .specialized base args =>
    match s.program.typeDecl base with
    | .error e => unknownText (.specialized base args) e.message
    | .ok t =>
      if s.config.isArgTyped t.name then
        match args with
        | [] =>
          unknownText (.specialized base args) "argument-typed extern without type argument"
        | arg :: _ =>
          match s.program.typeName? arg with
          | some bare => .plain bare
          | none => render s form arg
      else
        match args with
        | [] =>
          let unknown := unknownText (.specialized base args) "specialized type without arguments"
          ⟨unknown.text, arityNote t.name 0 :: unknown.notes⟩
        | [arg] =>
          let inner := render s form arg
          ⟨t.name ++ "_" ++ inner.text, inner.notes⟩
        | arg :: others =>
          let inner := render s form arg
          ⟨t.name ++ "_" ++ inner.text,
            arityNote t.name (others.length + 1) :: inner.notes⟩
  | .infInt => unknownText .infInt "no target representation"
  | .string => unknownText .string "no target representation"
  | .header id => unknownText (.header id) "no target representation"
  | .var x => unknownText (.var x) "no target representation"
  | .tuple items => unknownText (.tuple items) "no target representation"
where
  /-- One argument is all that a name can show. -/
  arityNote (name : String) (count : Nat) : Diagnostic :=
    .error .invalidArity textStage
      s!"Type {name} has {count} parameters; only 1 parameter is supported"

/-- The words of a type that stand before the declared name: two after `enum` and `struct`. -/
def headLength : List String → Nat
  | "enum" :: _ => 2
  | "struct" :: _ => 2
  | _ => 1

/-- Puts a name between the head of a type and what follows it; a bracket follows at once. -/
def declare (typeText name : String) : String :=
  let parts := Text.words typeText
  let head := Text.unwords (parts.take (headLength parts))
  let tail := Text.unwords (parts.drop (headLength parts))
  match tail.toList with
  | [] => head ++ " " ++ name
  | '[' :: _ => head ++ " " ++ name ++ tail
  | _ => head ++ " " ++ name ++ " " ++ tail

end Ty

end PacketC
