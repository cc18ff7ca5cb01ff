import PacketC.Proofs.Access.Words
import PacketC.Proofs.Lower.Reachable
import PacketC.Proofs.Scalar.Tree
import PacketC.Proofs.Scope.Statements

/-! What an action writes. From a state in which every accessor in the code around the statement is
applied to a place that it may reach, the action leaves such a state, and what it returns has a
property. The places are those of the fields that an expression reads, and those of the fields that
are filled into a payload. To apply accessors to these only is a manner of writing, in which names
have no accessor at all. -/

namespace PacketC

open Code

/-! ### Fields that are reached -/

namespace Program

/-- The field is the expression, or stands somewhere in it. -/
def ReachesField (p : Program) (id : ExprId) (ref : FieldRef) : Prop :=
  ∃ target e, p.Reaches id target ∧ p.At target e ∧ e.fieldRef? = some ref

/-- For a call on a specialized receiver with a struct initializer as its first argument, the fields
of the struct and the components, side by side. -/
def payloadPairs (p : Program) (call : Call) : List (Field × Component) := (do
  let m ← (← (p.expr call.method).toOption).member?
  let receiver ← (p.expr m.base).toOption
  let a ← (p.expr (← call.args.head?)).toOption
  match receiver.ty, a.ty, a.node with
  | .specialized .., .struct id, .structInit components =>
    return (← (p.typeDecl id).toOption).fields.zip components
  | _, _, _ => none).getD []

/-- The field stands at the place of a member above 32 bits, in the payload of a call that is
reached. -/
def ReachesPayload (p : Program) (id : ExprId) (ref : FieldRef) : Prop :=
  ∃ target e call q x, p.Reaches id target ∧ p.At target e ∧ e.node = .call call ∧
    q ∈ p.payloadPairs call ∧ 32 < q.1.size ∧ p.At q.2.value x ∧ x.fieldRef? = some ref

/-- The accessors may be applied to what is reached from the expression: to a field by its header
type, and for a payload by its header instance. -/
structure Permits (p : Program) (Q : Grant) (id : ExprId) : Prop where
  field : ∀ {ref l}, p.ReachesField id ref → p.packetField ref = .ok l → ∀ accessor,
    Q accessor l.headerId l.fieldId
  payload : ∀ {ref l}, p.ReachesPayload id ref → p.packetField ref = .ok l →
    Q "EXTRACT_BYTEBUF_PACKET" l.headerId l.fieldInstance

namespace Permits

variable {p : Program} {Q : Grant} {id child : ExprId}

theorem reached (h : p.Permits Q id) (hr : p.Reaches id child) : p.Permits Q child where
  field := by
    rintro ref l ⟨target, e, ht, he⟩
    exact h.field ⟨target, e, hr.trans ht, he⟩
  payload := by
    rintro ref l ⟨target, e, call, q, x, ht, he⟩
    exact h.payload ⟨target, e, call, q, x, hr.trans ht, he⟩

theorem part (h : p.Permits Q id) (hc : p.Part id child) : p.Permits Q child :=
  h.reached (.part hc (.refl child))

theorem self {e : Expr} {ref : FieldRef} {l : PacketField} (h : p.Permits Q id)
    (he : p.At id e) (href : e.fieldRef? = some ref) (hl : p.packetField ref = .ok l)
    (accessor : String) : Q accessor l.headerId l.fieldId :=
  h.field ⟨id, e, .refl id, he, href⟩ hl accessor

/-- The fields that an argument fills into a payload. -/
theorem pays {e method receiver : Expr} {call : Call} {m : Member} {base : TypeId} {args : List Ty}
    {arg : ExprId} (h : p.Permits Q id) (he : p.At id e) (hnode : e.node = .call call)
    (hmethod : p.At call.method method) (hmember : method.node = .member m)
    (hreceiver : p.At m.base receiver) (hty : receiver.ty = .specialized base args)
    (harg : call.args.head? = some arg) {a x : Expr} {sid : TypeId} {components : List Component}
    {d : TypeDecl} (ha : p.At arg a) (hstruct : a.ty = .struct sid)
    (hinit : a.node = .structInit components) (hd : p.typeDecl sid = .ok d) {q : Field × Component}
    (hq : q ∈ d.fields.zip components) (hsize : 32 < q.1.size) (hx : p.At q.2.value x)
    {ref : FieldRef} {l : PacketField} (href : x.fieldRef? = some ref)
    (hl : p.packetField ref = .ok l) : Q "EXTRACT_BYTEBUF_PACKET" l.headerId l.fieldInstance := by
  refine h.payload ⟨id, e, call, q, x, .refl id, he, hnode, ?_, hsize, hx, href⟩ hl
  simpa [payloadPairs, hmethod, Expr.member?, hmember, hreceiver, harg, ha, hty, hstruct, hinit, hd,
    Except.toOption] using hq

end Permits

end Program

/-! ### Names that are no accessors -/

/-- The texts of a field have no accessor, and its names can be part of a name. -/
structure PacketField.IsFree (l : PacketField) : Prop where
  headerId : Free l.headerId
  fieldId : Free l.fieldId
  fieldInstance : Free l.fieldInstance
  hint : (l.header ++ "_" ++ l.field).toList.all isWordChar = true

/-- Nothing that code of the program is written with mentions an accessor. -/
structure Muted (s : TypeScope) : Prop where
  wellFormed : s.program.WellFormed
  plain : s.program.PlainNames
  unsaid : ∀ a ∈ accessors, Unsaid s a

namespace Muted

variable {s : TypeScope}

theorem names (h : Muted s) {text : String} (ht : s.program.Says text) : Free text :=
  free_iff.2 fun a ha => (h.unsaid a ha).names text ht

theorem texts (h : Muted s) {text : String} (ht : Composes s text) : Free text :=
  free_iff.2 fun a ha => (h.unsaid a ha).texts text ht

theorem lock (h : Muted s) : Free s.config.lockMacro := free_iff.2 fun a ha => (h.unsaid a ha).lock

theorem unlock (h : Muted s) : Free s.config.unlockMacro :=
  free_iff.2 fun a ha => (h.unsaid a ha).unlock

theorem packetField (h : Muted s) {ref : FieldRef} {l : PacketField}
    (hl : s.program.packetField ref = .ok l) : l.IsFree := by
  have hfieldId := h.texts (.fieldId hl)
  have hinstance := h.texts (.fieldInstance hl)
  obtain ⟨i, t, f, hi, ht, hf, rfl⟩ := Lower.exists_of_packetField hl
  have hheader := Program.mem_of_lookup hi
  constructor
  case headerId =>
    dsimp only
    split
    · exact free_of_isFree (by decide)
    · exact h.texts (.header hheader)
  case fieldId => exact hfieldId
  case fieldInstance => exact hinstance
  case hint =>
    rw [String.toList_append, String.toList_append, List.all_append, List.all_append,
      (h.plain.headers i hheader).toIsWord.chars,
      (h.plain.fields t (Program.mem_of_lookup ht) f hf).toIsWord.chars]
    decide

end Muted

namespace Lower

/-! ### The accessors -/

section Accessors

variable {Q : Grant}

theorem starts_location (accessor header field : String) :
    starts isMark (location accessor header field) = true := by
  unfold location
  split
  · exact starts_append (starts_append (starts_append (by decide)))
  · exact starts_append (starts_append (starts_append (by decide)))

variable {field : String}

theorem free_location (accessor : String) {header : String} (hheader : Free header)
    (hfield : Free field) : Free (location accessor header field) := by
  unfold location
  split
  · exact ((closed_free.opens rfl).arg hheader rfl).last hfield
  · exact ((closed_free.opens rfl).arg hheader rfl).last hfield

/-- An accessor with a place that it may be applied to. -/
theorem accesses_applied {accessor header rest : String} (hword : IsWord accessor)
    (hQ : Q accessor header field) (hheader : Free header) (hfield : Free field)
    (hrest : Accesses Q rest) (hmark : starts isMark rest = true) :
    Accesses Q (accessor ++ (location accessor header field ++ rest)) := by
  have hstarts := starts_location accessor header field
  have hne : accessor.toList ≠ [] := by simp [hword.nonempty]
  rw [Accesses, words_append (.inr (starts_append hstarts)), words_append (.inr hmark), words,
    wordsIn_word hne hword.chars, List.singleton_append]
  refine .cons hQ (List.prefix_append _ _) ?_
  exact .append (free_location accessor hheader hfield).accesses hrest

variable {l : PacketField}

theorem accesses_extractPacket (hl : l.IsFree) {buffer : String} (hfield : Free field)
    (hQ : Q "EXTRACT_BYTEBUF_PACKET" l.headerId field) (hb : Accesses Q buffer) :
    Accesses Q (extractPacket l field buffer) := by
  have hsplit : "EXTRACT_BYTEBUF_PACKET(pd, " = "EXTRACT_BYTEBUF_PACKET" ++ "(pd, " := rfl
  have htext : extractPacket l field buffer = "EXTRACT_BYTEBUF_PACKET" ++
      (location "EXTRACT_BYTEBUF_PACKET" l.headerId field ++ (", " ++ buffer ++ ");")) := by
    show "EXTRACT_BYTEBUF_PACKET(pd, " ++ l.headerId ++ ", " ++ field ++ ", " ++ buffer ++ ");" =
      "EXTRACT_BYTEBUF_PACKET" ++ (("(pd, " ++ l.headerId ++ ", " ++ field) ++
        (", " ++ buffer ++ ");"))
    rw [hsplit]
    simp only [String.append_assoc]
  rw [htext]
  have hrest : Accesses Q (", " ++ buffer ++ ");") := (closed_accesses.opens rfl).close hb rfl
  refine accesses_applied (by decide) hQ hl.headerId hfield hrest ?_
  exact starts_append (starts_append (by decide))

theorem accesses_packetValue (hl : l.IsFree)
    (hQ : Q "GET_INT32_AUTO_PACKET" l.headerId l.fieldId) : Accesses Q (packetValue l) := by
  have hsplit : "(GET_INT32_AUTO_PACKET(pd, " = "(" ++ "GET_INT32_AUTO_PACKET" ++ "(pd, " := rfl
  have htext : packetValue l = "(" ++ ("GET_INT32_AUTO_PACKET" ++
      (location "GET_INT32_AUTO_PACKET" l.headerId l.fieldId ++ "))")) := by
    show "(GET_INT32_AUTO_PACKET(pd, " ++ l.headerId ++ ", " ++ l.fieldId ++ "))" =
      "(" ++ ("GET_INT32_AUTO_PACKET" ++ (("(pd, " ++ l.headerId ++ ", " ++ l.fieldId) ++ "))"))
    rw [hsplit]
    simp only [String.append_assoc]
  rw [htext]
  have hend : Accesses Q "))" := closed_accesses.fixed rfl
  refine (closed_accesses.opens rfl).last ?_
  exact accesses_applied (by decide) hQ hl.headerId hl.fieldId hend (by decide)

theorem accesses_setField (hl : l.IsFree) (hQ : Q "set_field" l.headerId l.fieldId)
    {value : String} (hv : Accesses Q value) : Accesses Q (setField l value) := by
  have hsplit : "set_field((fldT[])\x7b\x7bpd, " = "set_field" ++ "((fldT[])\x7b\x7bpd, " := rfl
  have htext : setField l value = "set_field" ++ (location "set_field" l.headerId l.fieldId ++
      ("\x7d\x7d, 0, " ++ value ++ ", " ++ toString l.width ++ ");")) := by
    show "set_field((fldT[])\x7b\x7bpd, " ++ l.headerId ++ ", " ++ l.fieldId ++ "\x7d\x7d, 0, " ++
        value ++ ", " ++ toString l.width ++ ");" =
      "set_field" ++ (("((fldT[])\x7b\x7bpd, " ++ l.headerId ++ ", " ++ l.fieldId) ++
        ("\x7d\x7d, 0, " ++ value ++ ", " ++ toString l.width ++ ");"))
    rw [hsplit]
    simp only [String.append_assoc]
  rw [htext]
  refine accesses_applied (by decide) hQ hl.headerId hl.fieldId ?_ ?_
  · exact ((closed_accesses.opens rfl).arg hv rfl).close (closed_accesses.number _) rfl
  · exact starts_append (starts_append (starts_append (starts_append (by decide))))

theorem accesses_modifyField (hl : l.IsFree)
    (hQ : Q "MODIFY_BYTEBUF_BYTEBUF_PACKET" l.headerId l.fieldId) {buffer bytes : String}
    (hb : Accesses Q buffer) (hs : Accesses Q bytes) : Accesses Q (modifyField l buffer bytes) := by
  have hsplit : "MODIFY_BYTEBUF_BYTEBUF_PACKET(pd, " =
    "MODIFY_BYTEBUF_BYTEBUF_PACKET" ++ "(pd, " := rfl
  have htext : modifyField l buffer bytes = "MODIFY_BYTEBUF_BYTEBUF_PACKET" ++
      (location "MODIFY_BYTEBUF_BYTEBUF_PACKET" l.headerId l.fieldId ++
        (", " ++ buffer ++ ", " ++ bytes ++ ");")) := by
    show "MODIFY_BYTEBUF_BYTEBUF_PACKET(pd, " ++ l.headerId ++ ", " ++ l.fieldId ++ ", " ++
        buffer ++ ", " ++ bytes ++ ");" =
      "MODIFY_BYTEBUF_BYTEBUF_PACKET" ++ (("(pd, " ++ l.headerId ++ ", " ++ l.fieldId) ++
        (", " ++ buffer ++ ", " ++ bytes ++ ");"))
    rw [hsplit]
    simp only [String.append_assoc]
  rw [htext]
  refine accesses_applied (by decide) hQ hl.headerId hl.fieldId ?_ ?_
  · exact ((closed_accesses.opens rfl).arg hb rfl).close hs rfl
  · exact starts_append (starts_append (starts_append (starts_append (by decide))))

end Accessors

/-! ### Actions -/

/-- Every accessor in the frame may be where it is. -/
def AccessesFrame (Q : Grant) (f : Frame) : Prop := ∀ piece ∈ f.pre ++ f.post, Accesses Q piece

/-- Every accessor in the code of all frames may be where it is. -/
structure AccessesAround (Q : Grant) (e : Emission) : Prop where
  current : AccessesFrame Q e.current
  outer : ∀ f ∈ e.outer, AccessesFrame Q f

namespace AccessesAround

variable {Q : Grant} {e : Emission} {code : String}

theorem empty : AccessesAround Q .empty := ⟨nofun, nofun⟩

variable (h : AccessesAround Q e)

include h

theorem prepend (hcode : Accesses Q code) : AccessesAround Q (e.prepend code) := by
  unfold Emission.prepend
  split
  · exact h
  · refine ⟨fun piece hpiece => ?_, h.outer⟩
    simp only [List.append_assoc, List.mem_append, List.mem_singleton] at hpiece
    rcases hpiece with hpiece | rfl | hpiece
    · exact h.current piece (List.mem_append_left _ hpiece)
    · exact hcode
    · exact h.current piece (List.mem_append_right _ hpiece)

theorem append (hcode : Accesses Q code) : AccessesAround Q (e.append code) := by
  refine ⟨fun piece hpiece => ?_, h.outer⟩
  simp only [Emission.append, List.mem_append, List.mem_singleton] at hpiece
  rcases hpiece with hpiece | hpiece | rfl
  · exact h.current piece (List.mem_append_left _ hpiece)
  · exact h.current piece (List.mem_append_right _ hpiece)
  · exact hcode

theorem push : AccessesAround Q e.push :=
  ⟨nofun, List.forall_mem_cons.2 ⟨h.current, h.outer⟩⟩

theorem pop : AccessesFrame Q e.pop.1 ∧ AccessesAround Q e.pop.2 := by
  unfold Emission.pop
  split
  · exact ⟨h.current, empty⟩
  · rename_i frame outer houter
    have hall := h.outer
    rw [houter, List.forall_mem_cons] at hall
    exact ⟨h.current, hall.1, hall.2⟩

/-- The code of all frames together. -/
theorem gathered : AccessesFrame Q e.gathered := by
  have hall : ∀ f ∈ (e.current :: e.outer).reverse, AccessesFrame Q f := by
    intro f hf
    rw [List.mem_reverse, List.mem_cons] at hf
    rcases hf with rfl | hf
    · exact h.current
    · exact h.outer f hf
  intro piece hpiece
  rcases List.mem_append.1 hpiece with hpiece | hpiece
  · obtain ⟨f, hf, hpiece⟩ := List.mem_flatMap.1 hpiece
    exact hall f hf piece (List.mem_append_left _ hpiece)
  · obtain ⟨f, hf, hpiece⟩ := List.mem_flatMap.1 hpiece
    exact hall f hf piece (List.mem_append_right _ hpiece)

end AccessesAround

/-- The supply of names is in order, and so is the code around the statement. -/
structure InOrder (Q : Grant) (s : State) : Prop where
  names : s.memory.names.Sound
  around : AccessesAround Q s.emission

abbrev Writes (env : Env) (Q : Grant) {α : Type} (P : α → Prop) (x : LowerM α) : Prop :=
  Maintains env (InOrder Q) P x

variable {α β : Type} {env : Env} {Q : Grant} {P : α → Prop} {R : β → Prop}

namespace Writes

theorem config {f : Config → LowerM β} (k : Writes env Q R (f env.config)) :
    Writes env Q R (Lower.config >>= f) := .inEnv (bind_of_pure rfl) k

theorem note (ds : List Diagnostic) : Writes env Q (fun _ => True) (Lower.note ds) where
  run hrun hs := by
    cases hrun
    exact ⟨⟨hs.names, hs.around⟩, trivial⟩

theorem firstTime (id : ExprId) : Writes env Q (fun _ => True) (Lower.firstTime id) where
  run hrun hs := by
    rw [run_firstTime] at hrun
    split at hrun <;> cases hrun <;> exact ⟨⟨hs.names, hs.around⟩, trivial⟩

theorem hoist {code : String} (h : Accesses Q code) :
    Writes env Q (fun _ => True) (Lower.hoist code) where
  run hrun hs := by
    cases hrun
    exact ⟨⟨hs.names, hs.around.prepend h⟩, trivial⟩

theorem defer {code : String} (h : Accesses Q code) :
    Writes env Q (fun _ => True) (Lower.defer code) where
  run hrun hs := by
    cases hrun
    exact ⟨⟨hs.names, hs.around.append h⟩, trivial⟩

/-- What a frame of its own gathers is in order as well. -/
theorem framed {x : LowerM α} (hx : Writes env Q P x) :
    Writes env Q (fun r => P r.1 ∧ AccessesFrame Q r.2) (Lower.framed x) where
  run {s r t} hrun hs := by
    obtain ⟨a, f⟩ := r
    obtain ⟨u, hu, rfl, rfl⟩ := exists_of_framed hrun
    obtain ⟨hu, ha⟩ := hx.run hu ⟨hs.names, hs.around.push⟩
    exact ⟨⟨hu.names, hu.around.pop.2⟩, ha, hu.around.pop.1⟩

/-! ### Names -/

variable {hint : String}

variable (h : hint.toList.all isWordChar = true)

include h

theorem chars_joined (k : Nat) :
    (NameSupply.joined hint (toString k)).toList.all isWordChar = true := by
  rw [NameSupply.joined, String.toList_append, String.toList_append, List.all_append,
    List.all_append, h, all_toString (by decide)]
  decide

theorem free_joined (k : Nat) : Free (NameSupply.joined hint (toString k)) :=
  free_of_word ⟨rfl, rfl⟩ (chars_joined h k) (numbered_joined hint k).last

omit h in
/-- A name under a hint and a handle. -/
theorem free_derived {x : String} {id : ExprId} (h : NameSupply.Derived hint id.text x)
    (hhint : hint.toList.all isWordChar = true) : Free x := by
  have hid : id.text = toString id.index := String.empty_append
  rw [NameSupply.Derived, hid] at h
  rcases h with rfl | ⟨n, rfl⟩
  · exact free_joined hhint _
  · exact free_joined (chars_joined hhint _) n

theorem freshName : Writes env Q Free (Lower.freshName hint) where
  run hrun hs := by
    cases hrun
    exact ⟨⟨hs.names.fresh hint, hs.around⟩, free_joined h _⟩

theorem nameOf {id : ExprId} : Writes env Q Free (Lower.nameOf hint id) where
  run {s _ _} hrun hs := by
    cases hrun
    have hnamed := hs.names.named hint id.text
    have hlookup := s.memory.names.lookup_named hint id.text
    exact ⟨⟨hnamed, hs.around⟩, free_derived (hnamed.derived _ _ _ hlookup) h⟩

end Writes

/-! ### Declarations and states -/

theorem free_declare {type name : String} (htype : Free type) (hname : Free name) :
    Free (Ty.declare type name) := by
  rw [free_iff] at htype hname ⊢
  exact fun a ha => clean_declare (htype a ha) (hname a ha)

theorem free_parserStateCall {state : String} (h : Free state) :
    Free (Target.parserStateCall state) := by
  have hname : Free ("parser_state_" ++ state) := .word_append (by decide) (by decide) h
  exact closed_free.ending hname rfl

end Lower

/-! ### The manner -/

namespace Muted

open Lower

variable {env : Env}

variable (hm : Muted env.toTypeScope)

include hm

/-- To apply accessors only where they may be. -/
def manner (Q : Grant) : Manner env where
  World := Unit
  Holds C x P := C () → Writes env Q (P · ()) x
  bind hx hf hC := .bind (hx hC) fun a ha hP => hf a ha ⟨hP, hC⟩
  weaken hx h hD := hx (h hD)
  inEnv h hy hC := .inEnv h (hy hC)
  pure h hC := .pure (h hC)
  throw _ := .throw
  note ds _ := .note ds
  lined := true
  Bare := Free
  Part x _ := Accesses Q x
  Text x _ := Accesses Q x
  Piece x _ := Accesses Q x
  Code x _ := Accesses Q x
  Announces m x _ := Free m → Accesses Q x
  Hint x := x.toList.all isWordChar = true
  bare := closed_free
  text := closed_accesses.sealed
  code := closed_accesses.sealed
  text_of_bare := Free.accesses
  code_of_text := id
  word := Free.append_word
  names := hm.names
  texts := hm.texts
  hint := id
  fieldHint hl := (hm.packetField hl).hint
  always h := h ()
  declare htype hname _ := (free_declare htype hname).accesses
  addition := by
    have hfield : Free "_field(" := free_of_isFree (by decide)
    have hadd : Free ("add_digest" ++ "_field(") := hfield.word_append (by decide) (by decide)
    exact fun {_} => hadd.accesses
  announces _ hintro hhead hfollows htail :=
    closed_accesses.declaration hintro.ends (hhead ()) Free.accesses hfollows (htail ())
  hoist h hC := .hoist (h hC)
  defer h hC := .defer (h hC)

theorem writes {Q : Grant} {α : Type} {x : LowerM α} {P : α → Unit → Prop}
    (h : (hm.manner Q).Holds (fun _ => True) x P) : Writes env Q (P · ()) x :=
  h trivial

theorem supplied (Q : Grant) : (hm.manner Q).Supplied where
  freshName h _ := .freshName h
  nameOf h _ _ := .nameOf h
  announced hm h := h hm
  state := free_parserStateCall

variable {Q : Grant} {id : ExprId} {e : Expr} {ref : FieldRef} {l : PacketField}

theorem grants (h : env.program.Permits Q id) (he : env.At id e)
    (href : e.fieldRef? = some ref) (hl : env.program.packetField ref = .ok l) :
    (hm.manner Q).Grants l :=
  have hfree := hm.packetField hl
  have hQ := h.self he href hl
  { value := accesses_packetValue hfree (hQ _)
    extract := accesses_extractPacket hfree hfree.fieldId (hQ _)
    set := accesses_setField hfree (hQ _)
    modify := accesses_modifyField hfree (hQ _) }

/-- Expressions whose fields may be accessed are written in this manner. -/
theorem admits : (hm.manner Q).Admits (env.program.Permits Q) where
  wellFormed := hm.wellFormed
  naming := (hm.supplied Q).naming
  part := .part
  field := hm.grants
  pays h he hnode hmethod hmember hreceiver hty harg _ _ _ _ ha hstruct hinit hd _ hq hsize _ _ _
      hx href hl _ _ hbuffer := by
    have hfree := hm.packetField hl
    refine accesses_extractPacket hfree hfree.fieldInstance ?_ hbuffer
    exact h.pays he hnode hmethod hmember hreceiver hty harg ha hstruct hinit hd hq hsize hx href hl
  buffer {_ id _ items} _ _ _ :=
    bufferText_holds (M := hm.manner Q) (fun _ => .nameOf rfl) (fun _ => .firstTime id) items
  struct _ _ _ := rfl
  select _ _ _ := ⟨rfl, hm.supplied Q, fun _ => .firstTime _⟩

end Muted

end PacketC
