import PacketC.Proofs.Lower.ExprSteps
import PacketC.Proofs.Scope.Declares

/-! What generated code is written with besides fixed texts and names from the supply: the names and
strings of the program, and the texts that are put together from them. A name that occurs in none
of them is told apart from everything else in the code. -/

namespace PacketC

open Code

/-! ### Where the words come from -/

mutual

def Ty.sayings : Ty → List String
  | .var x => [x]
  | .specialized _ args => Ty.sayingsOf args
  | .tuple items => Ty.sayingsOf items
  | _ => []

def Ty.sayingsOf : List Ty → List String
  | [] => []
  | ty :: rest => ty.sayings ++ Ty.sayingsOf rest

end

def Node.sayings : Node → List String
  | .path x => [x.name]
  | .member m => [m.member]
  | .str value => [value]
  | .cast dest _ => dest.sayings
  | .structInit components => components.map Component.name
  | .select _ cases => cases.map SelectArm.state
  | .call c => Ty.sayingsOf c.typeArgs
  | .typeName ty => ty.sayings
  | _ => []

def Signature.sayings (s : Signature) : List String :=
  s.name :: (s.typeParams ++ s.params.map Param.name ++ Ty.sayingsOf (s.params.map Param.ty) ++
    s.returnType.sayings)

def Decl.sayings (d : Decl) : List String :=
  d.name :: (d.valueType.sayings ++ d.signature?.toList.flatMap Signature.sayings)

def TypeDecl.sayings (t : TypeDecl) : List String :=
  t.name :: (t.cName?.toList ++ t.fields.map Field.name ++ t.members.map EnumMember.cName ++
    Ty.sayingsOf (t.fields.map Field.ty) ++ t.members.map EnumMember.name ++ t.typeParams ++
    t.methods.flatMap Signature.sayings)

/-- The names and strings of a program. -/
def Program.sayings (p : Program) : List String :=
  p.exprs.toList.flatMap (fun e => e.ty.sayings ++ e.node.sayings) ++
    p.decls.toList.flatMap Decl.sayings ++ p.typeDecls.toList.flatMap TypeDecl.sayings ++
    p.headers.toList.map HeaderInstance.name ++
    p.blocks.toList.flatMap fun b => [b.name, b.typeName]

def Program.Says (p : Program) (text : String) : Prop := text ∈ p.sayings

namespace Program.Says

variable {p : Program} {e : Expr} {t : TypeDecl} {text : String}

theorem of_node (he : e ∈ p.exprs) (h : text ∈ e.node.sayings) : p.Says text := by
  simp only [Says, sayings, List.mem_append, List.mem_flatMap, Array.mem_toList_iff]
  exact .inl (.inl (.inl (.inl ⟨e, he, .inr h⟩)))

theorem of_type (ht : t ∈ p.typeDecls) (h : text ∈ t.sayings) : p.Says text := by
  simp only [Says, sayings, List.mem_append, List.mem_flatMap, Array.mem_toList_iff]
  exact .inl (.inl (.inr ⟨t, ht, h⟩))

theorem path {path : Path} (he : e ∈ p.exprs) (h : e.node = .path path) : p.Says path.name :=
  of_node he (by rw [h]; exact .head _)

theorem member {m : Member} (he : e ∈ p.exprs) (h : e.node = .member m) : p.Says m.member :=
  of_node he (by rw [h]; exact .head _)

theorem str {value : String} (he : e ∈ p.exprs) (h : e.node = .str value) : p.Says value :=
  of_node he (by rw [h]; exact .head _)

theorem component {components : List Component} {c : Component} (he : e ∈ p.exprs)
    (h : e.node = .structInit components) (hc : c ∈ components) : p.Says c.name :=
  of_node he (by rw [h]; exact List.mem_map_of_mem hc)

theorem mem_sayingsOf {ty : Ty} {tys : List Ty} (hty : ty ∈ tys) (h : text ∈ ty.sayings) :
    text ∈ Ty.sayingsOf tys := by
  induction hty with
  | head rest => exact List.mem_append_left _ h
  | tail other _ ih => exact List.mem_append_right _ ih

theorem typeArg {c : Call} {ty : Ty} (he : e ∈ p.exprs) (h : e.node = .call c)
    (hty : ty ∈ c.typeArgs) (htext : text ∈ ty.sayings) : p.Says text :=
  of_node he (by rw [h]; exact mem_sayingsOf hty htext)

theorem decl {d : Decl} (hd : d ∈ p.decls) : p.Says d.name := by
  simp only [Says, sayings, List.mem_append, List.mem_flatMap, Array.mem_toList_iff]
  exact .inl (.inl (.inl (.inr ⟨d, hd, .head _⟩)))

theorem type (ht : t ∈ p.typeDecls) : p.Says t.name := of_type ht (.head _)

theorem target {c : String} (ht : t ∈ p.typeDecls) (hc : t.cName? = some c) : p.Says c :=
  of_type ht (by simp [TypeDecl.sayings, hc])

theorem field {f : Field} (ht : t ∈ p.typeDecls) (hf : f ∈ t.fields) : p.Says f.name := by
  have hname : f.name ∈ t.fields.map Field.name := List.mem_map_of_mem hf
  exact of_type ht (by simp [TypeDecl.sayings, hname])

theorem enumMember {m : EnumMember} (ht : t ∈ p.typeDecls) (hm : m ∈ t.members) :
    p.Says m.cName := by
  have hname : m.cName ∈ t.members.map EnumMember.cName := List.mem_map_of_mem hm
  refine of_type ht ?_
  simp only [TypeDecl.sayings, List.mem_cons, List.mem_append, hname, or_true, true_or]

theorem method {m : Signature} (ht : t ∈ p.typeDecls) (hm : m ∈ t.methods) : p.Says m.name := by
  have hname : m.name ∈ t.methods.flatMap Signature.sayings := List.mem_flatMap.2 ⟨m, hm, .head _⟩
  exact of_type ht (by simp [TypeDecl.sayings, hname])

theorem header {h : HeaderInstance} (hh : h ∈ p.headers) : p.Says h.name := by
  simp only [Says, sayings, List.mem_append, List.mem_map, Array.mem_toList_iff]
  exact .inl (.inr ⟨h, hh, rfl⟩)

theorem block {b : Block} (hb : b ∈ p.blocks) : p.Says b.typeName := by
  simp only [Says, sayings, List.mem_append, List.mem_flatMap, Array.mem_toList_iff]
  exact .inr ⟨b, hb, .tail _ (.head _)⟩

end Program.Says

/-- The texts that stand for types. -/
inductive TypeText (s : TypeScope) : String → Prop
  | render (ty : Ty) (form : TypeForm) : TypeText s (ty.render s form).text
  | name {t : TypeDecl} (ht : t ∈ s.program.typeDecls) : TypeText s t.name
  | unknown : TypeText s "int/*temporarily inserted for unknown type*/"

/-- The texts that the code puts together from the names of the program. -/
inductive Composes (s : TypeScope) : String → Prop
  | header {h : HeaderInstance} (hh : h ∈ s.program.headers) :
      Composes s (Target.headerInstance h.name)
  | fieldId {ref : FieldRef} {l : PacketField} (h : s.program.packetField ref = .ok l) :
      Composes s l.fieldId
  | fieldInstance {ref : FieldRef} {l : PacketField} (h : s.program.packetField ref = .ok l) :
      Composes s l.fieldInstance
  /-- A field of a header that the parser keeps. -/
  | parserField {e b : Expr} {m : Member} {path : Path} (he : e ∈ s.program.exprs)
      (h : e.node = .member m) (hb : s.program.expr m.base = .ok b) (hpath : b.path? = some path) :
      Composes s (Target.fieldId ((s.program.typeName? b.ty).getD path.name) m.member)
  | type {text : String} (h : TypeText s text) : Composes s text
  /-- A method of an external object, for some types. -/
  | function {t : TypeDecl} {m : Signature} {types : List String} (ht : t ∈ s.program.typeDecls)
      (hm : m ∈ t.methods) (h : ∀ text ∈ types, TypeText s text) :
      Composes s ("extern_" ++ t.name ++ "_" ++ m.name ++
        String.join (types.map fun ty => "_" ++ ty))
  /-- A parameter type of such a method. -/
  | parameter {t : TypeDecl} {m : Signature} {templates types : List String} {template : String}
      (ht : t ∈ s.program.typeDecls) (hm : m ∈ t.methods)
      (htemplates : (Convention.of t.name m.name).paramTemplates = some templates)
      (htemplate : template ∈ templates) (h : ∀ text ∈ types, TypeText s text) :
      Composes s (Convention.fill template types)

/-- Types go by identifiers. -/
structure Program.TypesNamed (p : Program) : Prop where
  name : ∀ t ∈ p.typeDecls, IsWord t.name
  target : ∀ t ∈ p.typeDecls, ∀ c, t.cName? = some c → IsWord c

/-- The name occurs in nothing that the code is written with besides names from the supply. -/
structure Unsaid (s : TypeScope) (n : String) : Prop where
  names : ∀ text, s.program.Says text → ¬ Mentions n text
  texts : ∀ text, Composes s text → ¬ Mentions n text
  lock : ¬ Mentions n s.config.lockMacro
  unlock : ¬ Mentions n s.config.unlockMacro

/-! ### Texts of types -/

theorem exists_of_typeName? {p : Program} {ty : Ty} {name : String}
    (h : p.typeName? ty = some name) : ∃ t ∈ p.typeDecls, t.name = name := by
  obtain ⟨id, _, h⟩ := Option.bind_eq_some_iff.1 h
  obtain ⟨t, ht, h⟩ := Option.bind_eq_some_iff.1 h
  exact ⟨t, Array.mem_of_getElem? ht, Option.some.inj h⟩

theorem node_of_path? {e : Expr} {path : Path} (h : e.path? = some path) : e.node = .path path := by
  unfold Expr.path? at h
  split at h
  · rename_i hnode
    cases h
    exact hnode
  · cases h

/-- A property of the texts that types are put together from, which is kept where they are. -/
structure TypeTexts (s : TypeScope) (P : String → Prop) : Prop where
  aliases : ∀ name text, s.aliases.find? name = some text → P text
  void : P "void"
  bool : P "bool"
  bits : ∀ form width signed, P (Ty.bitsText form width signed)
  varbits : ∀ bytes : Nat, P s!"uint8_t [{bytes}] /* preliminary type for varbits */"
  unknown : ∀ ty reason, P (Ty.unknownText ty reason).text
  name : ∀ t ∈ s.program.typeDecls, P t.name
  target : ∀ t ∈ s.program.typeDecls, ∀ c, t.cName? = some c → P ("enum " ++ c)
  external : ∀ t ∈ s.program.typeDecls, P (t.name ++ "_t")
  struct : ∀ t ∈ s.program.typeDecls, P ("struct " ++ Ty.structName t.name)
  specialized : ∀ t ∈ s.program.typeDecls, ∀ text, P text → P (t.name ++ "_" ++ text)

namespace TypeTexts

variable {s : TypeScope} {P : String → Prop}

theorem enumText (h : TypeTexts s P) (ty : Ty) (id : TypeId) : P (ty.enumText s id).text := by
  unfold Ty.enumText
  split
  · exact h.unknown ..
  · rename_i t ht
    split
    · rename_i c hc
      exact h.target t (Program.mem_of_lookup ht) c hc
    · exact h.unknown ..

theorem nameText (h : TypeTexts s P) (form : TypeForm) (ty : Ty) (id : TypeId) :
    P (ty.nameText s form id).text := by
  unfold Ty.nameText
  split
  · exact h.unknown ..
  · rename_i t ht
    split
    · rename_i c hc
      exact h.target t (Program.mem_of_lookup ht) c hc
    · have hname := h.name t (Program.mem_of_lookup ht)
      dsimp only [Noted.plain]
      split
      · cases htext : s.aliases.find? t.name with
        | none => exact hname
        | some text => exact h.aliases _ text htext
      · exact hname

theorem render (h : TypeTexts s P) (form : TypeForm) : ∀ ty : Ty, P (ty.render s form).text
  | .void => by rw [Ty.render]; exact h.void
  | .bool => by rw [Ty.render]; exact h.bool
  | .bits width signed => by rw [Ty.render]; exact h.bits ..
  | .varbits width => by rw [Ty.render]; exact h.varbits _
  | .enum id => by rw [Ty.render]; exact h.enumText ..
  | .error id => by rw [Ty.render]; exact h.enumText ..
  | .name id => by rw [Ty.render]; exact h.nameText ..
  | .external id => by
    rw [Ty.render]
    split
    · exact h.unknown ..
    · rename_i t ht
      exact h.external t (Program.mem_of_lookup ht)
  | .struct id => by
    rw [Ty.render]
    split
    · exact h.unknown ..
    · rename_i t ht
      exact h.struct t (Program.mem_of_lookup ht)
  | .specialized base args => by
    rw [Ty.render.eq_def]
    dsimp only
    split
    · exact h.unknown ..
    · rename_i t ht
      have hspecialized := h.specialized t (Program.mem_of_lookup ht)
      split
      · split
        · exact h.unknown ..
        · rename_i arg rest
          split
          · rename_i bare hbare
            obtain ⟨u, hu, rfl⟩ := exists_of_typeName? hbare
            exact h.name u hu
          · exact h.render form arg
      · split
        · exact h.unknown _ "specialized type without arguments"
        · exact hspecialized _ (h.render form _)
        · exact hspecialized _ (h.render form _)
  | .infInt => by rw [Ty.render]; exact h.unknown ..
  | .string => by rw [Ty.render]; exact h.unknown ..
  | .header _ => by rw [Ty.render]; exact h.unknown ..
  | .var _ => by rw [Ty.render]; exact h.unknown ..
  | .tuple _ => by rw [Ty.render]; exact h.unknown ..

end TypeTexts

/-- The name of a struct, from a property that is kept by leaving out the ending. -/
theorem structName_of {P : String → Prop} {name : String} (h : P name)
    (hending : ∀ stem, name = stem ++ "_t" → P (stem ++ "_s")) : P (Ty.structName name) := by
  unfold Ty.structName
  split
  · rename_i rest hrest
    refine hending _ (String.toList_injective ?_)
    rw [← List.reverse_reverse name.toList, hrest]
    simp
  · exact h

/-- A text that can stand before a declared name. -/
structure TypeLike (text : String) : Prop where
  starts : starts isWordChar text = true
  chars : text.toList.all isTypeChar = true

namespace TypeLike

variable {a b : String} {s : TypeScope}

theorem append (ha : TypeLike a) (hb : b.toList.all isTypeChar = true) : TypeLike (a ++ b) where
  starts := starts_append ha.starts
  chars := by rw [String.toList_append, List.all_append, ha.chars, hb, Bool.and_self]

theorem of_isWord (h : IsWord a) : TypeLike a where
  starts := by
    cases hcs : a.toList with
    | nil => exact absurd (String.toList_eq_nil_iff.1 hcs) h.nonempty
    | cons c cs =>
      have hchars := h.chars
      rw [hcs, List.all_cons, Bool.and_eq_true] at hchars
      rw [Code.starts, hcs]
      exact hchars.1
  chars := List.all_eq_true.2 fun c hc =>
    isTypeChar_of_isWordChar (List.all_eq_true.1 h.chars c hc)

theorem bitsText (form : TypeForm) (width : Nat) (signed : Bool) :
    TypeLike (Ty.bitsText form width signed) := by
  have hstem : TypeLike (if signed then "int" else "uint") := by
    cases signed <;> exact ⟨by decide, by decide⟩
  unfold Ty.bitsText
  dsimp only
  split
  · exact (hstem.append (all_toString (by decide) _)).append (by decide)
  · split
    · exact ((hstem.append (by decide)).append (all_toString (by decide) _)).append (by decide)
    · exact hstem.append (by decide)

/-- Under these names, the text of a type can stand before a declared name. -/
theorem typeTexts (h : s.program.TypesNamed) (halias : s.aliases = .empty) :
    TypeTexts s TypeLike where
  aliases _ _ h := by rw [halias] at h; cases h
  void := ⟨by decide, by decide⟩
  bool := ⟨by decide, by decide⟩
  bits := bitsText
  varbits bytes := by
    have hhead : TypeLike "uint8_t [" := ⟨by decide, by decide⟩
    exact (hhead.append (all_toString (by decide) _)).append (by decide)
  unknown ty reason := by
    have hhead : TypeLike "int /* generated in place of unknown type " :=
      ⟨by decide, by decide⟩
    have hshape : ty.shapeName.toList.all isTypeChar = true := by
      cases ty <;> simp only [Ty.shapeName] <;> decide
    exact (hhead.append hshape).append (by decide)
  name t ht := of_isWord (h.name t ht)
  target t ht c hc := by
    have hhead : TypeLike "enum " := ⟨by decide, by decide⟩
    exact hhead.append (of_isWord (h.target t ht c hc)).chars
  external t ht := (of_isWord (h.name t ht)).append (by decide)
  struct t ht := by
    have hhead : TypeLike "struct " := ⟨by decide, by decide⟩
    refine hhead.append (structName_of (P := fun text => text.toList.all isTypeChar = true)
      (of_isWord (h.name t ht)).chars fun stem hstem => ?_)
    have hchars := (of_isWord (h.name t ht)).chars
    rw [hstem, String.toList_append, List.all_append, Bool.and_eq_true] at hchars
    rw [String.toList_append, List.all_append, hchars.1]
    rfl
  specialized t ht text htext :=
    ((of_isWord (h.name t ht)).append (by decide)).append htext.chars

end TypeLike

/-! ### Programs without numbers in their names -/

/-- No name or string has a number after an underscore, and there are no external objects. -/
structure Program.Unnumbered (p : Program) : Prop where
  names : ∀ text, p.Says text → Code.Unnumbered text
  methods : ∀ t ∈ p.typeDecls, t.methods = []

namespace Program.Unnumbered

variable {s : TypeScope} {n : String}

theorem bitsText (form : TypeForm) (width : Nat) (signed : Bool) :
    Code.Unnumbered (Ty.bitsText form width signed) := by
  have harray : ∀ head : String, Code.Unnumbered head → ends (· != '_') head = true →
      Code.Unnumbered (head ++ toString (byteCount width) ++ "]") := fun head h hlast =>
    (h.append_number hlast _).append (by decide)
  unfold Ty.bitsText
  generalize Container.ofWidth width = c
  cases signed <;> cases c <;> dsimp only [Container.bits?]
  case false.buffer =>
    split
    · exact harray "uint8_t [" (by decide) (by decide)
    · decide
  case true.buffer =>
    split
    · exact harray "int8_t [" (by decide) (by decide)
    · decide
  all_goals decide

theorem typeTexts (h : s.program.Unnumbered) (halias : s.aliases = .empty) :
    TypeTexts s Code.Unnumbered where
  aliases _ _ h := by rw [halias] at h; cases h
  void := by decide
  bool := by decide
  bits := bitsText
  varbits bytes := by
    have hhead : Code.Unnumbered "uint8_t [" := by decide
    exact (hhead.append_number (by decide) _).append (by decide)
  unknown ty reason := by
    have hhead : Code.Unnumbered "int /* generated in place of unknown type " := by decide
    have hshape : Code.Unnumbered ty.shapeName := by
      cases ty <;> simp only [Ty.shapeName] <;> decide
    exact (hhead.append hshape).append (by decide)
  name t ht := h.names _ (.type ht)
  target t ht c hc := .append (by decide) (h.names _ (.target ht hc))
  external t ht := .append (h.names _ (.type ht)) (by decide)
  struct t ht := by
    refine .append (by decide) (structName_of (h.names _ (.type ht)) fun stem hstem => ?_)
    have hname : Code.Unnumbered t.name := h.names _ (.type ht)
    rw [hstem, Code.Unnumbered, String.toList_append, ← List.cons_append] at hname
    exact .append (isPlain_append hname).1 (by decide)
  specialized t ht text htext := ((h.names _ (.type ht)).append (by decide)).append htext

theorem composes (h : s.program.Unnumbered) (halias : s.aliases = .empty) {text : String}
    (htext : Composes s text) : Code.Unnumbered text := by
  have hfieldId : ∀ {type field : String}, Code.Unnumbered type → Code.Unnumbered field →
      Code.Unnumbered (Target.fieldId type field) := fun htype hfield =>
    .append (.append (.append (by decide) htype) (by decide)) hfield
  have hfield : ∀ {ref l}, s.program.packetField ref = .ok l →
      Code.Unnumbered l.header ∧ Code.Unnumbered l.typeName ∧ Code.Unnumbered l.field := by
    intro ref l hl
    obtain ⟨i, t, f, hi, ht, hf, rfl⟩ := Lower.exists_of_packetField hl
    refine ⟨h.names _ (.header (Program.mem_of_lookup hi)),
      h.names _ (.type (Program.mem_of_lookup ht)), ?_⟩
    exact h.names _ (.field (Program.mem_of_lookup ht) hf)
  have htype : ∀ {text}, TypeText s text → Code.Unnumbered text := by
    intro text htext
    cases htext with
    | render ty form => exact (h.typeTexts halias).render form ty
    | name ht => exact h.names _ (.type ht)
    | unknown => decide
  cases htext with
  | header hh => exact .append (by decide) (h.names _ (.header hh))
  | fieldId hl =>
    obtain ⟨_, htypeName, hfield⟩ := hfield hl
    exact hfieldId htypeName hfield
  | fieldInstance hl =>
    obtain ⟨hheader, _, hfield⟩ := hfield hl
    exact .append (.append (.append (by decide) hheader) (by decide)) hfield
  | @parserField e b m path he hnode hb hpath =>
    refine hfieldId ?_ (h.names _ (.member he hnode))
    cases hname : s.program.typeName? b.ty with
    | none =>
      have hmem := Program.mem_of_lookup hb
      exact h.names _ (.path hmem (node_of_path? hpath))
    | some name =>
      obtain ⟨t, ht, rfl⟩ := exists_of_typeName? hname
      exact h.names _ (.type ht)
  | type htext => exact htype htext
  | function ht hm => rw [h.methods _ ht] at hm; cases hm
  | parameter ht hm => rw [h.methods _ ht] at hm; cases hm

/-- In such a program no numbered name is said. -/
theorem unsaid (h : s.program.Unnumbered) (halias : s.aliases = .empty) (hn : Numbered n)
    (hlock : ¬ Mentions n s.config.lockMacro) (hunlock : ¬ Mentions n s.config.unlockMacro) :
    Unsaid s n where
  names _ htext := hn.not_mentions (h.names _ htext).isPlain
  texts _ htext := hn.not_mentions (h.composes halias htext).isPlain
  lock := hlock
  unlock := hunlock

end Program.Unnumbered

/-! ### Names that are apart -/

/-- A numbered name that a well-formed program does not mention. -/
structure Foreign (s : TypeScope) (n : String) : Prop extends Unsaid s n where
  numbered : Numbered n
  wellFormed : s.program.WellFormed

/-- A foreign name where types go by identifiers, in a session without aliases. -/
structure Apart (s : TypeScope) (n : String) : Prop extends Foreign s n where
  named : s.program.TypesNamed
  aliases : s.aliases = .empty

/-- No text of the field mentions the name. -/
structure PacketField.Apart (n : String) (l : PacketField) : Prop where
  header : ¬ Mentions n l.header
  headerId : ¬ Mentions n l.headerId
  field : ¬ Mentions n l.field
  fieldId : ¬ Mentions n l.fieldId
  fieldInstance : ¬ Mentions n l.fieldInstance

namespace Foreign

variable {s : TypeScope} {n : String}

/-- No code mentions a name that is no identifier. -/
theorem of_not_isWord (hn : Numbered n) (hword : ¬ IsWord n) (wf : s.program.WellFormed) :
    Foreign s n where
  names _ _ h := hword h.isWord
  texts _ _ h := hword h.isWord
  lock h := hword h.isWord
  unlock h := hword h.isWord
  numbered := hn
  wellFormed := wf

theorem typeText (h : Foreign s n) {text : String} (ht : TypeText s text) : ¬ Mentions n text :=
  h.texts text (.type ht)

theorem header (h : Foreign s n) {id : HeaderId} {i : HeaderInstance}
    (hi : s.program.header id = .ok i) :
    ¬ Mentions n i.name ∧ ¬ Mentions n (Target.headerInstance i.name) := by
  have hmem := Program.mem_of_lookup hi
  exact ⟨h.names _ (.header hmem), h.texts _ (.header hmem)⟩

theorem packetField (h : Foreign s n) {ref : FieldRef} {l : PacketField}
    (hl : s.program.packetField ref = .ok l) : l.Apart n := by
  have hfieldId := h.texts _ (.fieldId hl)
  have hinstance := h.texts _ (.fieldInstance hl)
  obtain ⟨i, t, f, hi, ht, hf, rfl⟩ := Lower.exists_of_packetField hl
  constructor
  case header => exact (h.header hi).1
  case headerId =>
    dsimp only
    split
    · exact h.numbered.not_mentions (by decide)
    · exact (h.header hi).2
  case field => exact h.names _ (.field (Program.mem_of_lookup ht) hf)
  case fieldId => exact hfieldId
  case fieldInstance => exact hinstance

end Foreign

theorem Apart.typeLike {s : TypeScope} {n : String} (h : Apart s n) {text : String}
    (ht : TypeText s text) : TypeLike text := by
  cases ht with
  | render ty form => exact (TypeLike.typeTexts h.named h.aliases).render form ty
  | name ht => exact .of_isWord (h.named.name _ ht)
  | unknown => exact ⟨by decide, by decide⟩

end PacketC
