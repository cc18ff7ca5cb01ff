import PacketC.Proofs.Scope.Invariant

/-! Manners of writing. A manner says what is asked of names, of the texts of expressions and of
code, and how an action is judged by it. What is asked may depend on what has been done so far, its
world. What is shown of the texts in hand may be used only where a condition holds, so that a manner
can do without it where it has nothing more to ask. The rules are those of the monad, so an action
is judged by its parts, whatever the manner is. -/

namespace PacketC.Lower

open Code

/-- A judgement of actions by their parts. -/
structure Judgement (env : Env) where
  World : Type
  /-- Where the condition holds, the action passes, and its result has the property. Both are of all
  worlds from here on. -/
  Holds : {α : Type} → (World → Prop) → LowerM α → (α → World → Prop) → Prop
  bind : ∀ {α β : Type} {C : World → Prop} {x : LowerM α} {f : α → LowerM β}
    {P : α → World → Prop} {Q : β → World → Prop}, Holds C x P →
      (∀ a, Returns env x a → Holds (fun w => P a w ∧ C w) (f a) Q) → Holds C (x >>= f) Q
  weaken : ∀ {α : Type} {C D : World → Prop} {x : LowerM α} {P : α → World → Prop}, Holds C x P →
    (∀ {w}, D w → C w) → Holds D x P
  inEnv : ∀ {α : Type} {C : World → Prop} {x y : LowerM α} {P : α → World → Prop},
    x env = y env → Holds C y P → Holds C x P
  pure : ∀ {α : Type} {C : World → Prop} {a : α} {P : α → World → Prop}, (∀ {w}, C w → P a w) →
    Holds C (Pure.pure a) P
  throw : ∀ {α : Type} {C : World → Prop} {e : LowerError} {P : α → World → Prop},
    Holds C (MonadExcept.throw e : LowerM α) P
  note : ∀ {C : World → Prop} (ds : List Diagnostic), Holds C (Lower.note ds) fun _ _ => True

namespace Judgement.Holds

variable {env : Env} {J : Judgement env} {α β : Type} {C : J.World → Prop} {P : α → J.World → Prop}
  {Q : β → J.World → Prop} {x : LowerM α} {f : α → LowerM β}

theorem bind (hx : J.Holds C x P)
    (hf : ∀ a, Returns env x a → J.Holds (fun w => P a w ∧ C w) (f a) Q) : J.Holds C (x >>= f) Q :=
  J.bind hx hf

theorem weaken {D : J.World → Prop} (hx : J.Holds C x P) (h : ∀ {w}, D w → C w) :
    J.Holds D x P := J.weaken hx h

theorem inEnv {y : LowerM α} (h : x env = y env) (hy : J.Holds C y P) : J.Holds C x P :=
  J.inEnv h hy

theorem pure {a : α} (h : ∀ {w}, C w → P a w) : J.Holds C (Pure.pure a) P := J.pure h

theorem throw {e : LowerError} : J.Holds C (MonadExcept.throw e : LowerM α) P := J.throw

/-- What is known of every result is known of this one. -/
theorem of_returns {P' : α → J.World → Prop} (hx : J.Holds C x P)
    (h : ∀ a, Returns env x a → ∀ {w}, P a w → P' a w) : J.Holds C x P' := by
  have hbind : J.Holds C (x >>= Pure.pure) P' := bind hx fun a ha => pure fun hP => h a ha hP.1
  rwa [bind_pure] at hbind

theorem conseq {P' : α → J.World → Prop} (hx : J.Holds C x P) (h : ∀ {a w}, P a w → P' a w) :
    J.Holds C x P' := of_returns hx fun _ _ => h

/-- An action of which nothing but its result is of interest. -/
theorem after (hx : J.Holds C x fun _ _ => True) (hf : ∀ a, Returns env x a → J.Holds C (f a) Q) :
    J.Holds C (x >>= f) Q :=
  bind hx fun a ha => weaken (hf a ha) And.right

theorem known {a : α} (h : x env = (Pure.pure a : LowerM α) env) (k : J.Holds C (f a) Q) :
    J.Holds C (x >>= f) Q := inEnv (bind_of_pure h) k

theorem resolve {g : Program → Except LowerError α}
    (k : ∀ a, g env.program = .ok a → J.Holds C (f a) Q) : J.Holds C (Lower.resolve g >>= f) Q := by
  rcases resolve_cases g f with ⟨a, ha, h⟩ | ⟨e, h⟩
  · exact inEnv h (k a ha)
  · exact inEnv h throw

theorem look {g : Program → Except ProgramError α}
    (k : ∀ a, g env.program = .ok a → J.Holds C (f a) Q) : J.Holds C (Lower.look g >>= f) Q := by
  rcases look_cases g f with ⟨a, ha, h⟩ | ⟨e, h⟩
  · exact inEnv h (k a ha)
  · exact inEnv h throw

theorem ask (view : Program → α) (k : J.Holds C (f (view env.program)) Q) :
    J.Holds C (Lower.ask view >>= f) Q := known rfl k

theorem config {f : Config → LowerM β} (k : J.Holds C (f env.config) Q) :
    J.Holds C (Lower.config >>= f) Q := known rfl k

theorem traces {f : Bool → LowerM β} (k : ∀ b, J.Holds C (f b) Q) :
    J.Holds C (Lower.traces >>= f) Q := known (a := env.config.emitDebugTraces) rfl (k _)

theorem isLocal (id : DeclId) {f : Bool → LowerM β} (k : ∀ b, J.Holds C (f b) Q) :
    J.Holds C (Lower.isLocal id >>= f) Q :=
  known (a := env.block.any fun block => env.program.isLocalOf block id) rfl (k _)

theorem note (ds : List Diagnostic) : J.Holds C (Lower.note ds) fun _ _ => True := J.note ds

theorem note_then (ds : List Diagnostic) {x : LowerM β} (k : J.Holds C x Q) :
    J.Holds C (do Lower.note ds; x) Q := after (note ds) fun _ _ => k

theorem mapM {l : List α} (h : ∀ a ∈ l, J.Holds C (f a) Q) :
    J.Holds C (l.mapM f) fun bs w => ∀ b ∈ bs, Q b w := by
  induction l with
  | nil => rw [List.mapM_nil]; exact pure fun _ => nofun
  | cons a l ih =>
    rw [List.mapM_cons]
    have hrest := ih fun b hb => h b (.tail a hb)
    refine bind (h a (.head l)) fun b _ => bind (weaken hrest And.right) fun rest _ => ?_
    exact pure fun hC => List.forall_mem_cons.2 ⟨hC.2.1, hC.1⟩

theorem forM {f : α → LowerM Unit} {l : List α} (h : ∀ a ∈ l, J.Holds C (f a) fun _ _ => True) :
    J.Holds C (l.forM f) fun _ _ => True := by
  induction l with
  | nil => exact pure fun _ => trivial
  | cons a l ih => exact after (h a (.head l)) fun _ _ => ih fun b hb => h b (.tail a hb)

end Judgement.Holds

/-- What stands in front of a name that is declared: its type and a blank. -/
inductive Introduces (s : TypeScope) : String → Prop
  | like {type : String} (h : TypeLike type) : Introduces s (type ++ " ")
  | type {type : String} (h : TypeText s type) : Introduces s (type ++ " ")

/-- A fixed text that has a type and a blank. -/
def isTypeHead (cs : List Char) : Bool :=
  cs.getLast? == some ' ' && cs.head?.any isWordChar && cs.all isTypeChar && isFixed true cs

theorem Introduces.ofList {s : TypeScope} {cs : List Char} (h : isTypeHead cs = true) :
    Introduces s (String.ofList cs) := by
  simp only [isTypeHead, Bool.and_eq_true, beq_iff_eq] at h
  obtain ⟨⟨⟨hlast, hhead⟩, hchars⟩, _⟩ := h
  obtain ⟨type, rfl⟩ := List.getLast?_eq_some_iff.1 hlast
  rw [List.all_append, Bool.and_eq_true] at hchars
  have hlike : TypeLike (String.ofList type) := by
    refine ⟨?_, by rw [String.toList_ofList]; exact hchars.1⟩
    rw [starts, String.toList_ofList]
    cases type with
    | nil => exact absurd hhead (by decide)
    | cons c type => exact hhead
  rw [String.ofList_append]
  exact .like hlike

theorem Introduces.ends {s : TypeScope} {head : String} (h : Introduces s head) :
    ends isMark head = true := by
  cases h with
  | like h => exact ends_append rfl
  | type h => exact ends_append rfl

/-- A judgement with what it asks of the texts that actions write. -/
structure Manner (env : Env) extends Judgement env where
  /-- Texts may go over several lines. -/
  lined : Bool
  /-- What is asked of the names of a program and of what is put together from them. -/
  Bare : String → Prop
  /-- What is asked of the parts of a text, and of the text. -/
  Part : String → World → Prop
  Text : String → World → Prop
  /-- What is asked of the parts of code, and of the code. -/
  Piece : String → World → Prop
  Code : String → World → Prop
  /-- What is asked of the code that declares a name from the supply. -/
  Announces : String → String → World → Prop
  /-- What names from the supply may be made of. -/
  Hint : String → Prop
  bare : Closed lined Bare
  text : ∀ {w}, Sealed lined (Part · w) (Text · w)
  code : ∀ {w}, Sealed true (Piece · w) (Code · w)
  text_of_bare : ∀ {x w}, Bare x → Text x w
  code_of_text : ∀ {x w}, Text x w → Code x w
  word : ∀ {x y}, Bare x → y.toList.all isWordChar = true → ends isEndLetter y = true →
    Bare (x ++ y)
  names : ∀ {x}, env.program.Says x → Bare x
  texts : ∀ {x}, Composes env.toTypeScope x → Bare x
  hint : ∀ {x}, x.toList.all isWordChar = true → Hint x
  fieldHint : ∀ {ref l}, env.program.packetField ref = .ok l → Hint (l.header ++ "_" ++ l.field)
  /-- What is always part of code is code. -/
  always : ∀ {x w}, (∀ w, Piece x w) → Code x w
  declare : ∀ {type name}, Bare type → Bare name → ∀ w, Piece (Ty.declare type name) w
  /-- The word in front of the bracket only ends like a macro. -/
  addition : ∀ {w}, Piece "add_digest_field(" w
  /-- If the name in the declaration is one of the program, nothing is declared. -/
  announces : ∀ {w head tail} (m), Introduces env.toTypeScope head → (∀ w, Piece head w) →
    Follows tail → (∀ w, Piece tail w) →
      Opening true (fun x => Bare m → Piece x w) (Announces m · w) (head ++ m ++ tail)
  hoist : ∀ {C : World → Prop} {x}, (∀ {w}, C w → Code x w) →
    Holds C (Lower.hoist x) fun _ _ => True
  defer : ∀ {C : World → Prop} {x}, (∀ {w}, C w → Code x w) →
    Holds C (Lower.defer x) fun _ _ => True

namespace Manner

variable {env : Env} {M : Manner env} {w : M.World} {x : String}

theorem part : Closed M.lined (M.Part · w) := M.text.closed

theorem piece : Closed true (M.Piece · w) := M.code.closed

theorem Text.part (h : M.Text x w) : M.Part x w := M.text.part h

theorem Text.code (h : M.Text x w) : M.Code x w := M.code_of_text h

theorem Code.piece (h : M.Code x w) : M.Piece x w := M.code.part h

theorem Text.piece (h : M.Text x w) : M.Piece x w := h.code.piece

theorem Bare.text (h : M.Bare x) : M.Text x w := M.text_of_bare h

theorem Bare.part (h : M.Bare x) : M.Part x w := h.text.part

theorem Bare.code (h : M.Bare x) : M.Code x w := h.text.code

theorem Bare.piece (h : M.Bare x) : M.Piece x w := h.code.piece

variable {cs : List Char}

theorem Bare.longer (h : M.Bare x) (hcs : isLonger M.lined cs = true) :
    M.Bare (x ++ String.ofList cs) := M.bare.longer (fun hw hlast => M.word h hw hlast) hcs

theorem path {id : ExprId} {e : Expr} {path : Path} (he : env.At id e)
    (h : e.path? = some path) : M.Bare path.name :=
  M.names (.path (Program.mem_of_expr he) (node_of_path? h))

theorem header {id : HeaderId} {i : HeaderInstance} (hi : env.program.header id = .ok i) :
    M.Bare i.name ∧ M.Bare (Target.headerInstance i.name) := by
  have hmem := Program.mem_of_lookup hi
  exact ⟨M.names (.header hmem), M.texts (.header hmem)⟩

/-- The names of a field can be written. -/
structure Field (M : Manner env) (l : PacketField) : Prop where
  header : M.Bare l.header
  headerId : M.Bare l.headerId
  field : M.Bare l.field
  fieldInstance : M.Bare l.fieldInstance

theorem packetField {ref : FieldRef} {l : PacketField} (hl : env.program.packetField ref = .ok l) :
    M.Field l := by
  have hinstance : M.Bare l.fieldInstance := M.texts (.fieldInstance hl)
  obtain ⟨i, t, f, hi, ht, hf, rfl⟩ := exists_of_packetField hl
  refine ⟨(header hi).1, ?_, M.names (.field (Program.mem_of_lookup ht) hf), hinstance⟩
  dsimp only
  split
  · exact M.bare.fixed rfl
  · exact (header hi).2

/-- A declaration with a fixed type. -/
theorem announcesFixed (m : String) {ds : List Char} (hcs : isTypeHead cs = true)
    (hds : isFollowing ds = true) :
    Opening true (fun x => M.Bare m → M.Piece x w) (M.Announces m · w)
      (String.ofList cs ++ m ++ String.ofList ds) := by
  refine M.announces m (.ofList hcs) (fun _ => M.piece.fixed ?_) (.ofList hds)
    fun _ => M.piece.fixed ?_
  · simp only [isTypeHead, Bool.and_eq_true] at hcs
    exact hcs.2
  · simp only [isFollowing, Bool.and_eq_true] at hds
    exact hds.2

/-- An array of bytes is declared. -/
theorem announcesBytes (m : String) (bytes : Nat)
    (hcs : (cs.getLast?.any isMark && !cs.all isTypeChar) = true)
    (hclosing : isClosing true cs = true) :
    Opening true (fun x => M.Bare m → M.Piece x w) (M.Announces m · w)
      ("uint8_t " ++ m ++ "[" ++ toString bytes ++ String.ofList cs) := by
  have htype : Introduces env.toTypeScope "uint8_t " := .ofList rfl
  have hopening := M.announces (w := w) m htype (fun _ => M.piece.fixed rfl) (.bounds bytes hcs)
    fun _ => (M.piece.opens rfl).close (M.piece.number bytes) hclosing
  rwa [← String.append_assoc, ← String.append_assoc] at hopening

/-- A variable is declared, and its value follows. -/
theorem announcesType {type : String} (m : String) (htype : TypeText env.toTypeScope type) :
    Opening true (fun x => M.Bare m → M.Piece x w) (M.Announces m · w)
      (type ++ " " ++ m ++ " = ") := by
  have htail : Follows " = " := .ofList rfl
  have hbare := M.texts (.type htype)
  exact M.announces m (.type htype) (fun _ => M.piece.ending hbare.piece rfl) htail fun _ =>
    M.piece.fixed rfl

theorem announcesValue {type value : String} (m : String) (htype : TypeText env.toTypeScope type)
    (hvalue : M.Piece value w) : M.Announces m s!"{type} {m} = {value};" w :=
  (announcesType m htype).close (fun _ => hvalue) rfl

/-- The macros that read and write a field may be applied to it. -/
structure Grants (M : Manner env) (l : PacketField) : Prop where
  value : ∀ {w}, M.Text (packetValue l) w
  extract : ∀ {buffer w}, M.Piece buffer w → M.Code (extractPacket l l.fieldId buffer) w
  set : ∀ {value w}, M.Piece value w → M.Code (setField l value) w
  modify : ∀ {buffer bytes w}, M.Piece buffer w → M.Piece bytes w →
    M.Code (modifyField l buffer bytes) w

/-- The buffer for a field is declared and filled. -/
theorem Grants.packetBuffer {l : PacketField} (h : M.Grants l) (m : String) (bytes : Nat) :
    M.Announces m (packetBuffer l m bytes) w :=
  (announcesBytes m bytes rfl rfl).last fun hm => (h.extract hm.piece).piece

end Manner

/-! ### Operations on the state -/

namespace Judgement.Holds

variable {env : Env} {M : Manner env} {β : Type} {C : M.World → Prop} {Q : β → M.World → Prop}
  {text : String}

theorem hoist (h : ∀ {w}, C w → M.Code text w) : M.Holds C (Lower.hoist text) fun _ _ => True :=
  M.hoist h

theorem hoist_then {x : LowerM β} (h : ∀ {w}, C w → M.Code text w) (k : M.Holds C x Q) :
    M.Holds C (do Lower.hoist text; x) Q := after (hoist h) fun _ _ => k

theorem defer_then {x : LowerM β} (h : ∀ {w}, C w → M.Code text w) (k : M.Holds C x Q) :
    M.Holds C (do Lower.defer text; x) Q := after (M.defer h) fun _ _ => k

theorem typeTextIn (form : TypeForm) (ty : Ty) :
    M.Holds C (Lower.typeTextIn form ty) fun text _ => M.Bare text := by
  refine known (a := env) rfl (note_then _ (pure fun _ => ?_))
  exact M.texts (.type (.render ty form))

theorem typeText (ty : Ty) : M.Holds C (Lower.typeText ty) fun text _ => M.Bare text :=
  typeTextIn .parameter ty

end Judgement.Holds

/-! ### Names -/

namespace Manner

section Names

variable {env : Env} {M : Manner env} {β : Type} {C : M.World → Prop} {Q : β → M.World → Prop}

/-- Names from the supply are bare. -/
structure Supplied (M : Manner env) : Prop where
  freshName : ∀ {C : M.World → Prop} {x}, M.Hint x →
    M.Holds C (Lower.freshName x) fun m _ => M.Bare m
  /-- The names of buffers have rules of their own. -/
  nameOf : ∀ {C : M.World → Prop} {x} {id : ExprId}, M.Hint x → x ≠ "buffer" →
    M.Holds C (Lower.nameOf x id) fun m _ => M.Bare m
  announced : ∀ {w m x}, M.Bare m → M.Announces m x w → M.Code x w
  state : ∀ {x}, M.Bare x → M.Bare (Target.parserStateCall x)

/-- Names from the supply may be used once they are declared. The name of an expression is declared
the same way each time. -/
structure Naming (M : Manner env) : Prop where
  freshThen : ∀ {α β : Type} {C : M.World → Prop} {P : α → M.World → Prop}
    {Q : β → M.World → Prop} {hint : String} {x : String → LowerM α} {code : String → α → String}
    {k : String → α → LowerM β}, M.Hint hint → (∀ m, M.Holds C (x m) P) →
      (∀ m a {w}, P a w ∧ C w → M.Announces m (code m a) w) →
      (∀ m a, M.Holds (fun w => M.Text m w ∧ P a w ∧ C w) (k m a) Q) →
      M.Holds C (do let m ← Lower.freshName hint; let a ← x m; Lower.hoist (code m a); k m a) Q
  nameThen : ∀ {α β : Type} {C : M.World → Prop} {P : α → M.World → Prop}
    {Q : β → M.World → Prop} {hint : String} {id : ExprId} {x : String → LowerM α}
    {code : String → α → String} {k : String → α → LowerM β}, M.Hint hint → hint ≠ "buffer" →
      (∀ m a, issue env.program hint id m = some (code m a)) → (∀ m, M.Holds C (x m) P) →
      (∀ m a {w}, P a w ∧ C w → M.Announces m (code m a) w) →
      (∀ m a, M.Holds (fun w => M.Text m w ∧ P a w ∧ C w) (k m a) Q) →
      M.Holds C (do let m ← Lower.nameOf hint id; let a ← x m; Lower.hoist (code m a); k m a) Q

theorem Supplied.naming (h : M.Supplied) : M.Naming := by
  have hthen : ∀ {α β : Type} {C : M.World → Prop} {P : α → M.World → Prop}
      {Q : β → M.World → Prop} {name : LowerM String} {x : String → LowerM α}
      {code : String → α → String} {k : String → α → LowerM β},
      M.Holds C name (fun m _ => M.Bare m) → (∀ m, M.Holds C (x m) P) →
      (∀ m a {w}, P a w ∧ C w → M.Announces m (code m a) w) →
      (∀ m a, M.Holds (fun w => M.Text m w ∧ P a w ∧ C w) (k m a) Q) →
      M.Holds C (do let m ← name; let a ← x m; Lower.hoist (code m a); k m a) Q := by
    intro α β C P Q name x code k hname hx hcode hk
    refine .bind hname fun m _ => .bind (.weaken (hx m) And.right) fun a _ => ?_
    refine .hoist_then (fun hC => ?_) (.weaken (hk m a) fun hC => ⟨hC.2.1.text, hC.1, hC.2.2⟩)
    exact h.announced hC.2.1 (hcode m a ⟨hC.1, hC.2.2⟩)
  exact ⟨fun hhint => hthen (h.freshName hhint), fun hhint hne _ => hthen (h.nameOf hhint hne)⟩

namespace Naming

variable {hint : String} {id : ExprId} {code : String → String} {k : String → LowerM β}
  (hhint : M.Hint hint) (hcode : ∀ m {w}, C w → M.Announces m (code m) w)
  (hk : ∀ m, M.Holds (fun w => M.Text m w ∧ C w) (k m) Q)

include hhint hcode hk

theorem freshName (h : M.Naming) :
    M.Holds C (do let m ← Lower.freshName hint; Lower.hoist (code m); k m) Q := by
  have hnone : ∀ _ : String, M.Holds C (Pure.pure ()) fun _ _ => True := fun _ =>
    .pure fun _ => trivial
  have hthen := h.freshThen hhint hnone (fun m _ {_} hC => hcode m hC.2)
    fun m _ => .weaken (hk m) fun hC => ⟨hC.1, hC.2.2⟩
  simpa only [pure_bind] using hthen

theorem nameOf (h : M.Naming) (hne : hint ≠ "buffer")
    (hissue : ∀ m, issue env.program hint id m = some (code m)) :
    M.Holds C (do let m ← Lower.nameOf hint id; Lower.hoist (code m); k m) Q := by
  have hnone : ∀ _ : String, M.Holds C (Pure.pure ()) fun _ _ => True := fun _ =>
    .pure fun _ => trivial
  have hthen := h.nameThen hhint hne (fun m _ => hissue m) hnone (fun m _ {_} hC => hcode m hC.2)
    fun m _ => .weaken (hk m) fun hC => ⟨hC.1, hC.2.2⟩
  simpa only [pure_bind] using hthen

end Naming

end Names

/-! ### Expressions -/

variable {env : Env}

/-- The members of a payload that an argument fills in may be extracted. -/
def Pays (M : Manner env) (arg : ExprId) : Prop :=
  ∀ ⦃a id components d⦄, env.At arg a → a.ty = .struct id →
    a.node = .structInit components → env.program.typeDecl id = .ok d →
      ∀ q ∈ d.fields.zip components, 32 < q.1.size → ∀ {x ref l},
        env.At q.2.value x → x.fieldRef? = some ref →
          env.program.packetField ref = .ok l → ∀ {buffer w}, M.Piece buffer w →
            M.Code (extractPacket l l.fieldInstance buffer) w

/-- The expressions that can be written in the manner: their parts can, and what is special to the
manner is known of them. -/
structure Admits (M : Manner env) (A : ExprId → Prop) : Prop where
  wellFormed : env.program.WellFormed
  naming : M.Naming
  part : ∀ {id child}, A id → env.program.Part id child → A child
  field : ∀ {id e ref l}, A id → env.At id e → e.fieldRef? = some ref →
    env.program.packetField ref = .ok l → M.Grants l
  pays : ∀ {id e call method m receiver base args arg}, A id → env.At id e →
    e.node = .call call → env.At call.method method → method.node = .member m →
      env.At m.base receiver → receiver.ty = .specialized base args →
        call.args.head? = some arg → M.Pays arg
  buffer : ∀ {C : M.World → Prop} {id e items}, A id → env.At id e →
    e.node = .list items → M.Holds C (bufferText id items) M.Text
  struct : ∀ {id e components}, A id → env.At id e →
    e.node = .structInit components → M.lined = true
  select : ∀ {id e keys arms}, A id → env.At id e → e.node = .select keys arms →
    M.lined = true ∧ M.Supplied ∧
      ∀ {C : M.World → Prop}, M.Holds C (firstTime id) fun _ _ => True

/-- All expressions that can be written in the manner are. -/
def Each (M : Manner env) (A : ExprId → Prop) (recur : Recur) : Prop :=
  ∀ ⦃C : M.World → Prop⦄ ⦃id⦄, A id → ∀ mode, M.Holds C (recur id mode) M.Text

end Manner

end PacketC.Lower
