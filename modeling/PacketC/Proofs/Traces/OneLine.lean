import PacketC.Proofs.Lower.Reachable
import PacketC.Proofs.Prose.Stores
import PacketC.Proofs.Text.Unbroken

/-! Expressions that are written on one line. Where no name or string of the program and no alias is
broken into lines, only struct initializers and transitions are; what an expression without them is
written as depends besides on the names from the supply, which are made of hints and numbers. So to
stay on one line is a manner of writing, in which nothing is asked of the code around. -/

namespace PacketC

/-- The node is neither a struct initializer nor a transition. -/
def Node.isPlain : Node → Bool
  | .structInit _ | .select .. => false
  | _ => true

/-- Neither a struct initializer nor a transition is reached from the expression. -/
def Program.Plain (p : Program) (id : ExprId) : Prop :=
  ∀ target e, p.Reaches id target → p.At target e → e.node.isPlain = true

theorem Program.Plain.reached {p : Program} {id child : ExprId} (h : p.Plain id)
    (hr : p.Reaches id child) : p.Plain child := fun target e ht => h target e (hr.trans ht)

/-- No text that code is written with has a line feed. -/
structure TypeScope.Unbroken (s : TypeScope) : Prop where
  names : ∀ text, s.program.Says text → Text.Unbroken text
  aliases : ∀ name text, s.aliases.find? name = some text → Text.Unbroken text

structure PacketField.Unbroken (l : PacketField) : Prop where
  header : Text.Unbroken l.header
  headerId : Text.Unbroken l.headerId
  typeName : Text.Unbroken l.typeName
  field : Text.Unbroken l.field

namespace PacketField.Unbroken

variable {l : PacketField}

theorem fieldId (h : l.Unbroken) : Text.Unbroken l.fieldId :=
  .append (.arg rfl h.typeName rfl) h.field

theorem fieldInstance (h : l.Unbroken) : Text.Unbroken l.fieldInstance :=
  .append (.arg rfl h.header rfl) h.field

end PacketField.Unbroken

namespace TypeScope.Unbroken

variable {s : TypeScope}

theorem header (h : s.Unbroken) {id : HeaderId} {i : HeaderInstance}
    (hi : s.program.header id = .ok i) : Text.Unbroken i.name :=
  h.names _ (.header (Program.mem_of_lookup hi))

theorem packetField (h : s.Unbroken) {ref : FieldRef} {l : PacketField}
    (hl : s.program.packetField ref = .ok l) : l.Unbroken := by
  obtain ⟨i, t, f, hi, ht, hf, rfl⟩ := Lower.exists_of_packetField hl
  refine ⟨h.header hi, ?_, h.names _ (.type (Program.mem_of_lookup ht)), ?_⟩
  · dsimp only
    split
    · exact rfl
    · exact .append rfl (h.header hi)
  · exact h.names _ (.field (Program.mem_of_lookup ht) hf)

theorem bitsText (form : TypeForm) (width : Nat) (signed : Bool) :
    Text.Unbroken (Ty.bitsText form width signed) := by
  have hstem : Text.Unbroken (if signed then "int" else "uint") := by cases signed <;> exact rfl
  unfold Ty.bitsText
  dsimp only
  split
  · exact .arg hstem (.toString _) rfl
  · split
    · exact .arg (.append hstem rfl) (.toString _) rfl
    · exact .append hstem rfl

/-- The texts of types are on one line. -/
theorem typeTexts (h : s.Unbroken) : TypeTexts s Text.Unbroken where
  aliases := h.aliases
  void := rfl
  bool := rfl
  bits := bitsText
  varbits bytes := .arg rfl (.toString bytes) rfl
  unknown ty reason := by
    have hshape : Text.Unbroken ty.shapeName := by
      cases ty <;> simp only [Ty.shapeName] <;> exact rfl
    exact .arg rfl hshape rfl
  name t ht := h.names _ (.type ht)
  target t ht c hc := .append rfl (h.names _ (.target ht hc))
  external t ht := .append (h.names _ (.type ht)) rfl
  struct t ht := by
    refine .append rfl (structName_of (h.names _ (.type ht)) fun stem hstem => ?_)
    have hname : Text.Unbroken t.name := h.names _ (.type ht)
    rw [hstem, Text.Unbroken, String.toList_append, List.all_append, Bool.and_eq_true] at hname
    exact .append hname.1 rfl
  specialized t ht text htext := .append (.append (h.names _ (.type ht)) rfl) htext

theorem composed (h : s.Unbroken) {text : String} (htext : Composes s text) :
    Text.Unbroken text := by
  have htype : ∀ {text}, TypeText s text → Text.Unbroken text := by
    intro text htext
    cases htext with
    | render ty form => exact h.typeTexts.render form ty
    | name ht => exact h.names _ (.type ht)
    | unknown => exact rfl
  cases htext with
  | header hh => exact .append rfl (h.names _ (.header hh))
  | fieldId hl => exact (h.packetField hl).fieldId
  | fieldInstance hl => exact (h.packetField hl).fieldInstance
  | @parserField e b m path he hnode hb hpath =>
    refine .append (.arg rfl ?_ rfl) (h.names _ (.member he hnode))
    cases hname : s.program.typeName? b.ty with
    | none => exact h.names _ (.path (Program.mem_of_expr hb) (node_of_path? hpath))
    | some name =>
      obtain ⟨t, ht, rfl⟩ := exists_of_typeName? hname
      exact h.names _ (.type ht)
  | type htext => exact htype htext
  | @function t m types ht hm htypes =>
    refine .append (.append (.arg rfl (h.names _ (.type ht)) rfl) (h.names _ (.method ht hm)))
      (.join fun text htext => ?_)
    obtain ⟨type, hmem, rfl⟩ := List.mem_map.1 htext
    exact .append rfl (htype (htypes type hmem))
  | @parameter t m templates types template ht hm htemplates htemplate htypes =>
    have hall : ∀ template ∈ templates, template.toList.all (· != '\n') = true := by
      unfold Convention.of at htemplates
      split at htemplates <;> cases htemplates <;> decide
    exact .fill (hall template htemplate) fun text htext => htype (htypes text htext)

end TypeScope.Unbroken

theorem Text.Unbroken.derived {hint id x : String} (h : NameSupply.Derived hint id x)
    (hhint : Text.Unbroken hint) (hid : Text.Unbroken id) : Text.Unbroken x := by
  have hjoined : Text.Unbroken (NameSupply.joined hint id) := .append (.append hhint rfl) hid
  rcases h with rfl | ⟨n, rfl⟩
  · exact hjoined
  · exact .append (.append hjoined rfl) (.toString n)

namespace Lower

open Code

/-- From a supply of names in order, the action leaves one, and what it returns has the property. -/
abbrev Spells (env : Env) {α : Type} (P : α → Prop) (x : LowerM α) : Prop :=
  Maintains env (fun s => s.memory.names.Sound) P x

variable {α β : Type} {env : Env} {P : α → Prop} {Q : β → Prop}

namespace Spells

/-- Whatever an action does, the supply stays in order. -/
theorem of_inStep {x : LowerM α} (h : InStep env env .any expr expr x x) :
    Spells env (fun _ => True) x where
  run {s _ _} hrun hs := by
    have hkeep := h.upkeep (upkeep_sound env.program _)
      (fun id _ => expr_upkeep (upkeep_sound _ _) id) s hs
    rw [hrun] at hkeep
    exact ⟨hkeep, trivial⟩

theorem freshName {hint : String} (h : Text.Unbroken hint) :
    Spells env Text.Unbroken (Lower.freshName hint) where
  run hrun hs := by
    cases hrun
    exact ⟨hs.fresh hint, .append (.append h rfl) (.toString _)⟩

theorem nameOf {hint : String} {id : ExprId} (h : Text.Unbroken hint) :
    Spells env Text.Unbroken (Lower.nameOf hint id) where
  run {s _ _} hrun hs := by
    cases hrun
    have hnamed := hs.named hint id.text
    have hid : Text.Unbroken id.text := .append rfl (.toString _)
    have hlookup := s.memory.names.lookup_named hint id.text
    exact ⟨hnamed, .derived (hnamed.derived _ _ _ hlookup) h hid⟩

theorem hoist {code : String} : Spells env (fun _ => True) (Lower.hoist code) where
  run hrun hs := by
    cases hrun
    exact ⟨hs, trivial⟩

theorem defer {code : String} : Spells env (fun _ => True) (Lower.defer code) where
  run hrun hs := by
    cases hrun
    exact ⟨hs, trivial⟩

/-- What every result has, whatever the action does. -/
theorem of_results {x : LowerM α} (h : InStep env env .any expr expr x x) (hx : Results env P x) :
    Spells env P x where
  run hrun hs := ⟨((of_inStep h).run hrun hs).1, hx _ ⟨_, _, hrun⟩⟩

end Spells

/-- The expression is written on one line. -/
def OneLine (env : Env) (id : ExprId) : Prop := ∀ mode, Spells env Text.Unbroken (expr id mode)

/-! ### The manner -/

theorem closed_unbroken : Closed false Text.Unbroken where
  fixed {cs} h := by
    simp only [isFixed, Bool.and_eq_true, Bool.or_false] at h
    rw [Text.Unbroken, String.toList_ofList]
    exact h.2
  append _ := .append

theorem unbroken_of_chars {x : String} (h : x.toList.all isWordChar = true) : Text.Unbroken x := by
  refine .of_not_mem fun hmem => ?_
  exact absurd (List.all_eq_true.1 h _ hmem) (by decide)

theorem unbroken_packetValue {l : PacketField} (h : l.Unbroken) : Text.Unbroken (packetValue l) :=
  .arg (.arg rfl h.headerId rfl) h.fieldId rfl

end Lower

open Lower Code

variable {env : Env}

/-- To stay on one line. -/
def TypeScope.Unbroken.manner (hone : env.toTypeScope.Unbroken) : Manner env where
  World := Unit
  Holds C x P := C () → Spells env (P · ()) x
  bind hx hf hC := .bind (hx hC) fun a ha hP => hf a ha ⟨hP, hC⟩
  weaken hx h hD := hx (h hD)
  inEnv h hy hC := .inEnv h (hy hC)
  pure h hC := .pure (h hC)
  throw _ := .throw
  note _ _ := .of_inStep (.note fun _ => trivial)
  lined := false
  Bare := Text.Unbroken
  Part x _ := Text.Unbroken x
  Text x _ := Text.Unbroken x
  Piece _ _ := True
  Code _ _ := True
  Announces _ _ _ := True
  Hint := Text.Unbroken
  bare := closed_unbroken
  text := closed_unbroken.sealed
  code := Closed.sealed ⟨fun _ => trivial, fun _ _ _ => trivial⟩
  text_of_bare := id
  code_of_text _ := trivial
  word hx hw _ := .append hx (unbroken_of_chars hw)
  names := hone.names _
  texts := hone.composed
  hint := unbroken_of_chars
  fieldHint hl := .arg (hone.packetField hl).header rfl (hone.packetField hl).field
  always _ := trivial
  declare _ _ _ := trivial
  addition := trivial
  announces _ _ _ hfollows _ :=
    ⟨⟨fun _ _ => trivial, fun _ _ _ _ => trivial⟩, fun _ => trivial, ends_append hfollows.ends,
      fun _ => trivial⟩
  hoist _ _ := .hoist
  defer _ _ := .defer

theorem TypeScope.Unbroken.spells (hone : env.toTypeScope.Unbroken) {α : Type} {x : LowerM α}
    {P : α → Unit → Prop} (h : hone.manner.Holds (fun _ => True) x P) : Spells env (P · ()) x :=
  h trivial

theorem TypeScope.Unbroken.supplied (hone : env.toTypeScope.Unbroken) : hone.manner.Supplied where
  freshName h _ := .freshName h
  nameOf h _ _ := .nameOf h
  announced _ _ := trivial
  state h := .arg rfl h rfl

theorem TypeScope.Unbroken.admits (hone : env.toTypeScope.Unbroken)
    (wf : env.program.WellFormed) : hone.manner.Admits env.program.Plain where
  wellFormed := wf
  naming := hone.supplied.naming
  part h hp := h.reached (.part hp (.refl _))
  field _ _ _ hl :=
    ⟨unbroken_packetValue (hone.packetField hl), fun _ => trivial, fun _ => trivial,
      fun _ _ => trivial⟩
  pays _ _ _ _ _ _ _ _ _ _ _ _ _ _ _ _ _ _ _ _ _ _ _ _ _ _ _ _ := trivial
  buffer {_ id _ items} _ _ _ :=
    bufferText_holds (M := hone.manner) (fun _ => .nameOf rfl)
      (fun _ => .of_inStep (.firstTime trivial)) items
  struct {id e _} h he hnode := by
    have hplain := h id e (.refl id) he
    rw [hnode] at hplain
    cases hplain
  select {id e _ _} h he hnode := by
    have hplain := h id e (.refl id) he
    rw [hnode] at hplain
    cases hplain

namespace Lower

theorem expr_eq_look (id : ExprId) (mode : Mode) (env : Env) :
    expr id mode env =
      (do nodeText (exprWithin env.program.exprs.size) (← look (·.expr id)) mode) env := rfl

/-- An expression from which neither a struct initializer nor a transition is reached. -/
theorem oneLine_of_plain (wf : env.program.WellFormed) (hone : env.toTypeScope.Unbroken)
    {id : ExprId} (hplain : env.program.Plain id) : OneLine env id := fun mode =>
  hone.spells (expr_holds (hone.admits wf) hplain mode)

/-- The receiver of a digest stands on one line if it is written so, and its fields do anyway. -/
structure Digest.Unbroken (d : Digest) : Prop where
  receiver : Text.Unbroken d.receiver
  fields : ∀ f ∈ d.fields, f.Unbroken

theorem digestOfCall_spells (hone : env.toTypeScope.Unbroken) {call : Call}
    (hr : ∀ receiver fields, call.args = [receiver, fields] → OneLine env receiver) :
    Spells env Digest.Unbroken (Digest.ofCall expr call) := by
  have hholds : hone.manner.Holds (fun _ => True) (Digest.ofCall expr call)
      fun d _ => d.Unbroken := by
    refine .resolve fun name _ => .resolve fun args hargs => ?_
    refine .bind (P := hone.manner.Text) (fun _ => hr _ _ (args_of_arguments hargs) _)
      fun receiver _ => ?_
    refine .look fun items _ => .after (fun _ => .of_inStep ?_) fun fields hfields => ?_
    · exact packetFields_inStep (Licence.any_suits _) fun h => h.strict.elim
    · refine .pure fun h => ⟨h.1, fun f hf => ?_⟩
      rw [fields_of_packetFields hfields] at hf
      obtain ⟨ref, hf⟩ := packetField_of_sentFields hf
      exact hone.packetField hf
  exact hone.spells hholds

end Lower

end PacketC
