import PacketC.Proofs.Build.Scoped
import PacketC.Proofs.Extend.Program

/-! What a building step does to a program, whatever it is given and whatever the program is like.
A step that fails changes nothing. A step that succeeds puts nodes at the end of one arena and hands
out the place of the last of them, or adds a local to a block. If what it takes is there, then what
it adds fits the program. So a handle that was handed out points at the same node for ever, and an
expression carries the handle of its place. -/

namespace PacketC

/-- A handle made from a place never points further than the place. -/
theorem Handle.index_ofIndex_le {arena : Arena} (i : Nat) :
    (Handle.ofIndex i : Handle arena).index ≤ i := by
  simp only [Handle.index, Handle.ofIndex, UInt32.toNat_ofNat']
  exact Nat.mod_le _ _

namespace Build

variable {n m : Nat} {p q r : Program} {ty : Ty} {node : Node} {s : Step} {a : Added}

/-! ### What fits a program under construction -/

/-- A handle that points into its arena. -/
def Issued (p : Program) : Added → Prop
  | .type id => id.index < p.typeDecls.size
  | .header id => id.index < p.headers.size
  | .decl id => id.index < p.decls.size
  | .block id => id.index < p.blocks.size
  | .expr id => id.index < p.exprs.size
  | .local => True

/-- Every handle in the type is one of the `n` that there will be, or points at a declaration
already. -/
def Fits (n : Nat) (p : Program) (ty : Ty) : Prop :=
  ∀ id, ty.Mentions id → id.index < n ∨ id.index < p.typeDecls.size

/-- A node that can stand at place `i`. -/
structure NodeFits (n : Nat) (p : Program) (i : Nat) (node : Node) : Prop where
  parts : ∀ id, node.Mentions id → id.index < i
  types : ∀ ty, node.HoldsTy ty → Fits n p ty
  paths : ∀ path d, node = .path path → path.decl = some d → d.index < p.decls.size
  headers : ∀ m h, node = .member m → m.header = some h → h.index < p.headers.size
  fields : ∀ m ref, node = .member m → m.field = some ref → p.Resolves ref

structure DeclFits (n : Nat) (p : Program) (d : Decl) : Prop where
  types : ∀ ty, d.body.HoldsTy ty → Fits n p ty
  exprs : ∀ id, d.body.Mentions id → id.index < p.exprs.size

/-- A program under construction. -/
structure Sound (n : Nat) (p : Program) : Prop where
  ids : ∀ (i : Nat) (e : Expr), p.exprs[i]? = some e → e.id = .ofIndex i
  exprTypes : ∀ e ∈ p.exprs, Fits n p e.ty
  nodes : ∀ (i : Nat) (e : Expr), p.exprs[i]? = some e → NodeFits n p i e.node
  decls : ∀ d ∈ p.decls, DeclFits n p d
  typeDecls : ∀ t ∈ p.typeDecls, ∀ ty, t.body.HoldsTy ty → Fits n p ty
  headers : ∀ h ∈ p.headers, h.headerType.index < p.typeDecls.size
  locals : ∀ b ∈ p.blocks, ∀ d ∈ b.locals, d.index < p.decls.size

namespace Sound

variable (h : Sound n p)

include h

theorem fits_typeOf (id : ExprId) : Fits n p ((p.exprs[id.index]?.map Expr.ty).getD .void) := by
  cases he : p.exprs[id.index]? with
  | none => exact nofun
  | some e => exact h.exprTypes e (Array.mem_of_getElem? he)

theorem fits_valueType {d : Decl} (hd : d ∈ p.decls) : Fits n p d.valueType := by
  have htypes := (h.decls d hd).types
  unfold Decl.valueType
  cases hb : d.body with
  | var ty init => exact htypes ty (hb ▸ .var ty init)
  | inst ty args => exact htypes ty (hb ▸ .inst ty args)
  | param ty dir => exact htypes ty (hb ▸ .param ty dir)
  | const ty value => exact htypes ty (hb ▸ .const ty value)
  | function s => exact htypes s.returnType (hb ▸ .function .returned)
  | table => exact nofun
  | action => exact nofun

end Sound

/-- What the step takes is there, in a sound program. -/
structure Step.Grounded (n : Nat) (p : Program) (s : Step) : Prop where
  sound : Sound n p
  handles : ∀ a, s.Takes a → Issued p a
  looks : ∀ t, s.LooksAt t → t.index < p.typeDecls.size
  types : ∀ ty, s.TakesTy ty → Fits n p ty
  fields : s.FieldFits p

/-! ### Expressions at the end -/

/-- The expressions are as asked for at the places from `m` on. -/
def PlacedFrom (P : Nat → Expr → Prop) (m : Nat) (exprs : List Expr) : Prop :=
  ∀ (i : Nat) (e : Expr), exprs[i]? = some e → P (m + i) e

namespace PlacedFrom

variable {P : Nat → Expr → Prop} {xs ys : List Expr}

theorem append (hx : PlacedFrom P m xs) (hy : PlacedFrom P (m + xs.length) ys) :
    PlacedFrom P m (xs ++ ys) := by
  intro i e he
  by_cases hi : i < xs.length
  · rw [List.getElem?_append_left hi] at he
    exact hx i e he
  · rw [List.getElem?_append_right (by omega)] at he
    have hplace : m + xs.length + (i - xs.length) = m + i := by omega
    exact hplace ▸ hy _ e he

theorem singleton {e : Expr} (h : P m e) : PlacedFrom P m [e] := by
  intro i e' he
  obtain ⟨hi, rfl⟩ := List.getElem?_eq_some_iff.1 he
  obtain rfl : i = 0 := by simpa using hi
  exact h

end PlacedFrom

/-- The expression carries the handle of its place. -/
def Numbered (i : Nat) (e : Expr) : Prop := e.id = .ofIndex i

/-- A new expression carries the handle of its place, and fits the program as far as `H` says so. -/
structure New (H : Prop) (n : Nat) (p : Program) (i : Nat) (e : Expr) : Prop where
  numbered : Numbered i e
  type : H → Fits n p e.ty
  node : H → NodeFits n p i e.node

/-- The program with more expressions at the end. -/
def withExprs (p : Program) (new : List Expr) : Program :=
  { p with exprs := p.exprs ++ new.toArray }

/-- From `p` the action succeeds: it puts expressions at the end and gives back the last one. -/
def Lengthens (H : Prop) (n : Nat) (p : Program) (x : Build ExprId) : Prop :=
  ∃ front last, PlacedFrom (New H n p) p.exprs.size (front ++ [last]) ∧
    x.run p = (.ok (.ofIndex (p.exprs.size + front.length)), withExprs p (front ++ [last]))

/-- From `p` the action fails with an error of the kind and leaves the program alone, or it puts
expressions at the end. -/
def Tries (H : Prop) (T : ProgramError → Prop) (n : Nat) (p : Program) (x : Build ExprId) : Prop :=
  (∃ e, x.run p = (.error e, p) ∧ (H → T e)) ∨ Lengthens H n p x

variable {H : Prop} {T : ProgramError → Prop} {x : Build ExprId} {α β : Type}

theorem run_bind_of_ok {x : Build α} {f : α → Build β} {a : α} (h : x.run p = (.ok a, q)) :
    (x >>= f).run p = (f a).run q := by
  rw [ExceptT.run_bind]
  show (StateT.bind x.run _ : StateM Program _) p = _
  simp only [StateT.bind, h]
  rfl

theorem run_bind_of_error {x : Build α} {f : α → Build β} {e : ProgramError}
    (h : x.run p = (.error e, q)) : (x >>= f).run p = (.error e, q) := by
  rw [ExceptT.run_bind]
  show (StateT.bind x.run _ : StateM Program _) p = _
  simp only [StateT.bind, h]
  rfl

theorem run_look {look : Program → Except ProgramError α} {f : α → Build β} :
    (do f (← look (← get)) : Build β).run p =
      match look p with
      | .ok a => (f a).run p
      | .error e => (.error e, p) := by
  have hget : (get : Build Program).run p = (.ok p, p) := rfl
  rw [run_bind_of_ok hget]
  cases look p <;> rfl

theorem run_expr (p : Program) (ty : Ty) (node : Node) : (Build.expr ty node).run p =
    (.ok (.ofIndex p.exprs.size),
      { p with exprs := p.exprs.push ⟨.ofIndex p.exprs.size, ty, node⟩ }) := rfl

namespace Lengthens

theorem expr (hty : H → Fits n p ty) (hnode : H → NodeFits n p p.exprs.size node) :
    Lengthens H n p (Build.expr ty node) := by
  refine ⟨[], ⟨.ofIndex p.exprs.size, ty, node⟩, .singleton ⟨rfl, hty, hnode⟩, ?_⟩
  simp [withExprs, run_expr]

/-- An action that only looks something up may come first. -/
theorem read {x : Build α} {f : α → Build ExprId} {a : α} (hx : x.run p = (.ok a, p))
    (hf : Lengthens H n p (f a)) : Lengthens H n p (x >>= f) := by
  obtain ⟨front, last, hplaced, hrun⟩ := hf
  exact ⟨front, last, hplaced, (run_bind_of_ok hx).trans hrun⟩

/-- One more expression, which may refer to the last one. -/
theorem snoc (hx : Lengthens H n p x) (hty : H → Fits n p ty) {node : ExprId → Node}
    (hnode : H → ∀ id i, p.exprs.size ≤ i → id.index < i → NodeFits n p i (node id)) :
    Lengthens H n p (x >>= fun id => Build.expr ty (node id)) := by
  obtain ⟨front, last, hplaced, hrun⟩ := hx
  have hsize : (withExprs p (front ++ [last])).exprs.size =
      p.exprs.size + (front ++ [last]).length := by simp [withExprs]
  refine ⟨front ++ [last], ⟨.ofIndex (p.exprs.size + (front ++ [last]).length), ty,
    node (.ofIndex (p.exprs.size + front.length))⟩, hplaced.append (.singleton ⟨rfl, hty, ?_⟩), ?_⟩
  · refine fun hH => hnode hH _ _ (Nat.le_add_right ..) ?_
    refine Nat.lt_of_le_of_lt (Handle.index_ofIndex_le _) ?_
    rw [List.length_append]
    exact Nat.lt_succ_self _
  · rw [run_bind_of_ok hrun, run_expr, hsize]
    simp [withExprs]

end Lengthens

namespace Tries

theorem snoc (hx : Tries H T n p x) (hty : H → Fits n p ty) {node : ExprId → Node}
    (hnode : H → ∀ id i, p.exprs.size ≤ i → id.index < i → NodeFits n p i (node id)) :
    Tries H T n p (x >>= fun id => Build.expr ty (node id)) := by
  rcases hx with ⟨e, hrun, hT⟩ | hx
  · exact .inl ⟨e, run_bind_of_error hrun, hT⟩
  · exact .inr (hx.snoc hty hnode)

/-- What is looked up is found, as far as `H` says so. -/
theorem look {look : Program → Except ProgramError α} {f : α → Build ExprId}
    (hfound : H → ∃ a, look p = .ok a) (hf : ∀ a, look p = .ok a → Tries H T n p (f a)) :
    Tries H T n p (do f (← look (← get))) := by
  unfold Tries Lengthens
  rw [run_look]
  cases ha : look p with
  | error e =>
    refine .inl ⟨e, rfl, fun hH => ?_⟩
    obtain ⟨a, ha'⟩ := hfound hH
    rw [ha] at ha'
    cases ha'
  | ok a => exact hf a ha

end Tries

theorem run_typeOf (p : Program) (id : ExprId) :
    (typeOf id).run p = (.ok ((p.exprs[id.index]?.map Expr.ty).getD .void), p) := rfl

theorem run_typesOf (p : Program) (ids : List ExprId) : (ids.mapM typeOf).run p =
    (.ok (ids.map fun id => (p.exprs[id.index]?.map Expr.ty).getD .void), p) := by
  induction ids with
  | nil => rfl
  | cons id ids ih =>
    rw [List.mapM_cons, run_bind_of_ok (run_typeOf p id), run_bind_of_ok ih]
    rfl

/-! ### The actions that look something up -/

section Actions

variable (h : H → Sound n p)

include h

theorem tries_path {id : DeclId} (hid : H → id.index < p.decls.size) :
    Tries H T n p (Build.path id) := by
  refine .look (fun hH => Program.exists_lookup (hid hH)) fun d hd => .inr (.expr (fun hH => ?_)
    fun hH => ⟨nofun, nofun, ?_, nofun, nofun⟩)
  · exact (h hH).fits_valueType (Program.mem_of_lookup hd)
  · rintro _ _ ⟨⟩ ⟨⟩
    exact hid hH

/-- Both shapes of a header's path have the type of the instance, which is declared. -/
theorem tries_headerRef {id : HeaderId} (hid : H → id.index < p.headers.size) :
    Tries H T n p (Build.headerRef id) := by
  refine .look (fun hH => Program.exists_lookup (hid hH)) fun i hi => .inr ?_
  have hty : H → i.headerType.index < p.typeDecls.size := fun hH =>
    (h hH).headers i (Program.mem_of_lookup hi)
  have hpath : ∀ name, NodeFits n p p.exprs.size (.path ⟨name, none, false⟩) := fun name =>
    ⟨nofun, nofun, by rintro _ _ ⟨⟩ ⟨⟩, nofun, nofun⟩
  split
  · refine .expr (fun hH => ?_) fun _ => hpath _
    rintro _ ⟨⟩; exact .inr (hty hH)
  · have hbase : Lengthens H n p (namedPath "hdr" .void) := .expr (fun _ => nofun) fun _ => hpath _
    refine hbase.snoc (fun hH => ?_) fun hH id i _ hid' =>
      ⟨?_, nofun, nofun, ?_, by rintro _ _ ⟨⟩ ⟨⟩⟩
    · rintro _ ⟨⟩; exact .inr (hty hH)
    · rintro _ ⟨⟩; exact hid'
    · rintro _ _ ⟨⟩ ⟨⟩; exact hid hH

end Actions

theorem holdsTy_of_mem_fields {t : TypeDecl} {f : Field} (hf : f ∈ t.fields) :
    t.body.HoldsTy f.ty := by
  unfold TypeDecl.fields at hf
  split at hf
  · rename_i hbody; rw [hbody]; exact .headerField hf
  · rename_i hbody; rw [hbody]; exact .structField hf
  · cases hf

/-- The field is found by its name, so the reference resolves. -/
theorem tries_field (h : H → Sound n p) {id : HeaderId} (name : String)
    (hid : H → id.index < p.headers.size) :
    Tries H (fun e => (Step.field id name).Tolerates p (.error e)) n p (Build.field id name) := by
  refine .look (fun hH => ?_) fun t ht => ?_
  · obtain ⟨i, hi⟩ := Program.exists_lookup (hid hH)
    obtain ⟨t, ht⟩ := Program.exists_lookup ((h hH).headers i (Program.mem_of_lookup hi))
    exact ⟨t, Program.bind_eq_ok_iff.2 ⟨i, hi, ht⟩⟩
  cases hfield : t.fieldIndex? name with
  | none => exact .inl ⟨_, rfl, fun _ => ⟨t, ht, hfield⟩⟩
  | some k =>
    obtain ⟨i, hi, htype⟩ := Program.bind_eq_ok_iff.1 ht
    have hk : k < t.fields.length := (List.findIdx?_eq_some_iff_getElem.1 hfield).1
    dsimp only
    rw [List.getElem?_eq_getElem hk]
    refine (tries_headerRef h hid).snoc (fun hH => ?_) fun hH base j _ hbase =>
      ⟨?_, nofun, nofun, by rintro _ _ ⟨⟩ ⟨⟩, ?_⟩
    · exact (h hH).typeDecls t (Program.mem_of_lookup htype) _
        (holdsTy_of_mem_fields (List.getElem_mem hk))
    · rintro _ ⟨⟩; exact hbase
    · rintro _ _ ⟨⟩ ⟨⟩
      have hwrap : (UInt64.ofNat k).toNat < t.fields.length :=
        Nat.lt_of_le_of_lt (Nat.mod_le _ _) hk
      exact ⟨i, t, _, Program.lookup_eq_ok_iff.1 hi, Program.lookup_eq_ok_iff.1 htype,
        List.getElem?_eq_getElem hwrap⟩

theorem lengthens_typeMember (name : String) (hty : H → Fits n p ty) :
    Lengthens H n p (do let base ← Build.expr ty (.typeName ty); Build.member base name ty) := by
  have hbase : Lengthens H n p (Build.expr ty (.typeName ty)) := .expr hty fun hH =>
    ⟨nofun, by rintro _ ⟨⟩; exact hty hH, nofun, nofun, nofun⟩
  refine hbase.snoc hty fun hH base i _ hlt =>
    ⟨?_, nofun, nofun, by rintro _ _ ⟨⟩ ⟨⟩, by rintro _ _ ⟨⟩ ⟨⟩⟩
  rintro _ ⟨⟩; exact hlt

theorem tries_enumMember {id : TypeId} (name : String) (hid : H → id.index < p.typeDecls.size) :
    Tries H (fun e => (Step.enumMember id name).Tolerates p (.error e)) n p
      (Build.enumMember id name) := by
  refine .look (fun hH => Program.exists_lookup (hid hH)) fun t ht => ?_
  cases hmember : t.member? name with
  | none => exact .inl ⟨_, rfl, fun _ => ⟨t, ht, hmember⟩⟩
  | some m =>
    refine .inr (lengthens_typeMember name fun hH => ?_)
    split
    · rintro _ ⟨⟩; exact .inr (hid hH)
    · rintro _ ⟨⟩; exact .inr (hid hH)

/-! ### What a step does -/

/-- One arena becomes longer, and the handle is that of its last node. As far as `H` says so, what
is new fits. -/
inductive Adds (H : Prop) (n : Nat) (p : Program) : Option String → Added → Program → Prop
  | type (t : TypeDecl) (h : H → ∀ ty, t.body.HoldsTy ty → Fits n p ty) :
      Adds H n p none (.type (.ofIndex p.typeDecls.size)) { p with typeDecls := p.typeDecls.push t }
  | header (i : HeaderInstance) (h : H → i.headerType.index < p.typeDecls.size) :
      Adds H n p (some i.name) (.header (.ofIndex p.headers.size))
        { p with headers := p.headers.push i }
  | decl (d : Decl) (h : H → DeclFits n p d) :
      Adds H n p none (.decl (.ofIndex p.decls.size)) { p with decls := p.decls.push d }
  | block (b : Block) (h : b.locals = []) :
      Adds H n p none (.block (.ofIndex p.blocks.size)) { p with blocks := p.blocks.push b }
  | expr {front : List Expr} {last : Expr}
      (h : PlacedFrom (New H n p) p.exprs.size (front ++ [last])) :
      Adds H n p none (.expr (.ofIndex (p.exprs.size + front.length)))
        (withExprs p (front ++ [last]))

/-- A block gets one more local, and nothing else changes. -/
def AddsLocal (b : BlockId) (d : DeclId) (p q : Program) : Prop :=
  ∃ old, p.block b = .ok old ∧
    q = { p with
      blocks := p.blocks.setIfInBounds b.index { old with locals := old.locals ++ [d] } }

/-- How a step can end, and what comes of it if all that it takes is there. -/
inductive Step.Ends (s : Step) (n : Nat) (p : Program) :
    Except ProgramError Added × Program → Prop
  | failed {e : ProgramError} (hname : s.headerName? = none)
      (h : s.Grounded n p → s.Tolerates p (.error e)) : s.Ends n p (.error e, p)
  | added {a : Added} {q : Program} (hs : ∀ b d, s ≠ .addLocal b d)
      (h : Adds (s.Grounded n p) n p s.headerName? a q) : s.Ends n p (.ok a, q)
  | grown {b : BlockId} {d : DeclId} {q : Program} (hs : s = .addLocal b d)
      (h : AddsLocal b d p q) : s.Ends n p (.ok .local, q)

theorem Step.ends_of_tries (hs : s.run = Added.expr <$> x) (hname : s.headerName? = none)
    (hlocal : ∀ b d, s ≠ .addLocal b d)
    (hx : Tries (s.Grounded n p) (fun e => s.Tolerates p (.error e)) n p x) :
    s.Ends n p (s.apply p) := by
  rw [Step.apply, hs, map_eq_pure_bind]
  rcases hx with ⟨e, hrun, hT⟩ | ⟨front, last, hplaced, hrun⟩
  · rw [run_bind_of_error hrun]
    exact .failed hname hT
  · rw [run_bind_of_ok hrun]
    exact .added hlocal (hname ▸ .expr hplaced)

theorem Step.ends_addLocal (n : Nat) (p : Program) (b : BlockId) (d : DeclId) :
    (Step.addLocal b d).Ends n p ((Step.addLocal b d).apply p) := by
  rw [Step.apply, Step.run, Build.addLocal, map_eq_pure_bind, bind_assoc]
  have hget : (get : Build Program).run p = (.ok p, p) := rfl
  rw [run_bind_of_ok hget]
  cases hb : p.block b with
  | error e =>
    refine .failed rfl fun h => ?_
    obtain ⟨old, hold⟩ := Program.exists_lookup (h.handles _ (.localBlock b d))
    cases hb.symm.trans hold
  | ok old => exact .grown rfl ⟨old, hb, rfl⟩

/-- The step lemma. -/
theorem Step.ends (s : Step) (n : Nat) (p : Program) : s.Ends n p (s.apply p) := by
  cases s with
  | typeDecl name body =>
    exact .added nofun (.type ⟨name, body⟩ fun h ty m => h.types ty (.typeBody m))
  | enumType name members => exact .added nofun (.type _ fun _ => nofun)
  | errorType members => exact .added nofun (.type _ fun _ => nofun)
  | headerInstance name t =>
    exact .added nofun (.header ⟨name, t, _⟩ fun h => h.looks t (.headerInstance name t))
  | decl name body =>
    exact .added nofun (.decl ⟨name, body⟩ fun h =>
      ⟨fun ty m => h.types ty (.declBody m), fun id m => h.handles _ (.initializer m)⟩)
  | block name typeName kind => exact .added nofun (.block _ rfl)
  | addLocal b d => exact ends_addLocal n p b d
  | expr ty node =>
    refine ends_of_tries rfl rfl nofun (.inr (.expr (·.types ty (.ofExpr ty node)) fun h => ?_))
    exact {
      parts := fun id m => h.handles _ (.part m)
      types := fun inner m => h.types inner (.inNode m)
      paths := by rintro path d rfl hd; exact h.handles _ (.named hd)
      headers := by rintro m i rfl hi; exact h.handles _ (.memberHeader hi)
      fields := by rintro m ref rfl hr; exact h.fields ty m ref rfl hr }
  | path d => exact ends_of_tries rfl rfl nofun (tries_path (·.sound) (·.handles _ (.path d)))
  | namedPath name ty =>
    refine ends_of_tries rfl rfl nofun (.inr (.expr (·.types ty (.namedPath name ty)) fun _ => ?_))
    exact ⟨nofun, nofun, by rintro _ _ ⟨⟩ ⟨⟩, nofun, nofun⟩
  | member base name ty =>
    refine ends_of_tries rfl rfl nofun
      (.inr (.expr (·.types ty (.member base name ty)) fun h => ?_))
    refine ⟨?_, nofun, nofun, by rintro _ _ ⟨⟩ ⟨⟩, by rintro _ _ ⟨⟩ ⟨⟩⟩
    rintro _ ⟨⟩; exact h.handles _ (.base base name ty)
  | headerRef i =>
    exact ends_of_tries rfl rfl nofun (tries_headerRef (·.sound) (·.handles _ (.headerRef i)))
  | field i name =>
    exact ends_of_tries rfl rfl nofun (tries_field (·.sound) name (·.handles _ (.field i name)))
  | enumMember t name =>
    exact ends_of_tries rfl rfl nofun (tries_enumMember name (·.looks t (.enumMember t name)))
  | unary op e =>
    have hparts : (Step.unary op e).Grounded n p → NodeFits n p p.exprs.size (.unary op e) :=
      fun h => ⟨by rintro _ ⟨⟩; exact h.handles _ (.operand op e), nofun, nofun, nofun, nofun⟩
    refine ends_of_tries (x := Build.unary op e) rfl rfl nofun (.inr ?_)
    unfold Build.unary
    split
    · exact .expr (fun _ => nofun) hparts
    · exact .read (run_typeOf p e) (.expr (·.sound.fits_typeOf e) hparts)
  | binary op l r =>
    have hparts (h : (Step.binary op l r).Grounded n p) :
        NodeFits n p p.exprs.size (.binary op l r) := by
      refine ⟨?_, nofun, nofun, nofun, nofun⟩
      rintro _ ⟨⟩
      · exact h.handles _ (.left op l r)
      · exact h.handles _ (.right op l r)
    refine ends_of_tries (x := Build.binary op l r) rfl rfl nofun (.inr ?_)
    unfold Build.binary
    split
    · exact .expr (fun _ => nofun) hparts
    · exact .read (run_typeOf p l) (.expr (·.sound.fits_typeOf l) hparts)
  | mux c t f =>
    refine ends_of_tries rfl rfl nofun (.inr (.read (run_typeOf p t) (.expr
      (·.sound.fits_typeOf t) fun h => ⟨?_, nofun, nofun, nofun, nofun⟩)))
    rintro _ ⟨⟩
    · exact h.handles _ (.cond c t f)
    · exact h.handles _ (.ifTrue c t f)
    · exact h.handles _ (.ifFalse c t f)
  | slice e hi lo =>
    refine ends_of_tries rfl rfl nofun (.inr (.expr (fun _ => nofun) fun h =>
      ⟨?_, nofun, nofun, nofun, nofun⟩))
    rintro _ ⟨⟩; exact h.handles _ (.sliced e hi lo)
  | concat l r =>
    refine ends_of_tries rfl rfl nofun (.inr (.read (run_typeOf p l) (.read (run_typeOf p r)
      (.expr (fun _ => nofun) fun h => ⟨?_, nofun, nofun, nofun, nofun⟩))))
    rintro _ ⟨⟩
    · exact h.handles _ (.upper l r)
    · exact h.handles _ (.lower l r)
  | cast dest e =>
    refine ends_of_tries rfl rfl nofun (.inr (.expr (·.types dest (.dest dest e)) fun h =>
      ⟨?_, ?_, nofun, nofun, nofun⟩))
    · rintro _ ⟨⟩; exact h.handles _ (.converted dest e)
    · rintro _ ⟨⟩; exact h.types dest (.dest dest e)
  | list items =>
    refine ends_of_tries rfl rfl nofun (.inr (.read (run_typesOf p items) (.expr (fun h => ?_)
      fun h => ⟨?_, nofun, nofun, nofun, nofun⟩)))
    · intro id m
      cases m with
      | item hmem m =>
        obtain ⟨item, -, rfl⟩ := List.mem_map.1 hmem
        exact h.sound.fits_typeOf item id m
    · intro id m
      cases m with
      | item hmem => exact h.handles _ (.item hmem)
  | mask v m =>
    refine ends_of_tries rfl rfl nofun (.inr (.read (run_typeOf p v) (.expr
      (·.sound.fits_typeOf v) fun h => ⟨?_, nofun, nofun, nofun, nofun⟩)))
    rintro _ ⟨⟩
    · exact h.handles _ (.maskValue v m)
    · exact h.handles _ (.mask v m)
  | range l u =>
    refine ends_of_tries rfl rfl nofun (.inr (.read (run_typeOf p l) (.expr
      (·.sound.fits_typeOf l) fun h => ⟨?_, nofun, nofun, nofun, nofun⟩)))
    rintro _ ⟨⟩
    · exact h.handles _ (.low l u)
    · exact h.handles _ (.high l u)
  | call m typeArgs args ty =>
    refine ends_of_tries rfl rfl nofun (.inr (.expr (·.types ty (.result m typeArgs args ty))
      fun h => ⟨?_, ?_, nofun, nofun, nofun⟩))
    · intro id hid
      cases hid with
      | method => exact h.handles _ (.method m typeArgs args ty)
      | arg harg => exact h.handles _ (.arg harg)
    · intro arg harg
      cases harg with
      | typeArg harg => exact h.types arg (.typeArg harg)
  | methodCall e name args ty =>
    have hbase : Lengthens ((Step.methodCall e name args ty).Grounded n p) n p
        (Build.member e name .void) := by
      refine .expr (fun _ => nofun) fun h => ⟨?_, nofun, nofun, by rintro _ _ ⟨⟩ ⟨⟩,
        by rintro _ _ ⟨⟩ ⟨⟩⟩
      rintro _ ⟨⟩; exact h.handles _ (.receiver e name args ty)
    refine ends_of_tries rfl rfl nofun (.inr (hbase.snoc (·.types ty (.methodResult e name args ty))
      fun h id i hi hid => ⟨?_, ?_, nofun, nofun, nofun⟩))
    · intro id' hid'
      cases hid' with
      | method => exact hid
      | arg harg => exact Nat.lt_of_lt_of_le (h.handles _ (.methodArg harg)) hi
    · intro arg harg
      cases harg with
      | typeArg harg => cases harg

/-! ### Handles that were handed out -/

/-- All nodes stay where they are, and more can stand behind them; blocks can get more locals. -/
structure LeadsTo (p q : Program) : Prop where
  exprs : p.exprs.toList <+: q.exprs.toList
  decls : p.decls.toList <+: q.decls.toList
  typeDecls : p.typeDecls.toList <+: q.typeDecls.toList
  headers : p.headers.toList <+: q.headers.toList
  blocks : ∀ (i : Nat) (b : Block), p.blocks[i]? = some b →
    ∃ more, q.blocks[i]? = some { b with locals := b.locals ++ more }

namespace LeadsTo

theorem of_extendsTo (h : p.ExtendsTo q) : LeadsTo p q :=
  ⟨h.exprs, h.decls, h.typeDecls, h.headers, fun _ _ hb =>
    ⟨[], by rw [Program.getElem?_of_isPrefix h.blocks hb, List.append_nil]⟩⟩

theorem refl (p : Program) : LeadsTo p p := of_extendsTo (.refl p)

theorem trans (h : LeadsTo p q) (k : LeadsTo q r) : LeadsTo p r where
  exprs := h.exprs.trans k.exprs
  decls := h.decls.trans k.decls
  typeDecls := h.typeDecls.trans k.typeDecls
  headers := h.headers.trans k.headers
  blocks i b hb := by
    obtain ⟨more, hmore⟩ := h.blocks i b hb
    obtain ⟨rest, hrest⟩ := k.blocks i _ hmore
    exact ⟨more ++ rest, by rw [hrest, List.append_assoc]⟩

end LeadsTo

variable {name : Option String}

theorem Adds.extendsTo (h : Adds H n p name a q) : p.ExtendsTo q := by
  cases h <;> constructor <;> simp [withExprs]

theorem AddsLocal.leadsTo {b : BlockId} {d : DeclId} (h : AddsLocal b d p q) : LeadsTo p q := by
  obtain ⟨old, hold, rfl⟩ := h
  refine ⟨List.prefix_refl _, List.prefix_refl _, List.prefix_refl _, List.prefix_refl _, ?_⟩
  intro i c hc
  by_cases hi : b.index = i
  · subst hi
    cases (Program.lookup_eq_ok_iff.1 hold).symm.trans hc
    have hlt := (Array.getElem?_eq_some_iff.1 hc).1
    exact ⟨[d], by rw [Array.getElem?_setIfInBounds_self_of_lt hlt]⟩
  · exact ⟨[], by rw [Array.getElem?_setIfInBounds_ne hi, hc, List.append_nil]⟩

theorem Step.leadsTo (s : Step) (p : Program) : LeadsTo p (s.apply p).2 := by
  have hends := s.ends 0 p
  generalize s.apply p = result at hends ⊢
  cases hends with
  | failed => exact .refl p
  | added _ h => exact .of_extendsTo h.extendsTo
  | grown _ h => exact h.leadsTo

/-- The run lemma. -/
theorem runAll_leadsTo (steps : List Step) (p : Program) : LeadsTo p (runAll steps p) := by
  induction steps generalizing p with
  | nil => exact .refl p
  | cons s rest ih => exact (s.leadsTo p).trans (ih _)

/-- The handle is the place of the last node of `ys`, which is not one of `xs`. -/
structure IsNewest {arena : Arena} {α : Type} (xs ys : Array α) (id : Handle arena) : Prop where
  longer : xs.size < ys.size
  last : id = .ofIndex (ys.size - 1)
  /-- There are no more than 2 ^ 32 handles. -/
  index_eq : ys.size ≤ UInt32.size → id.index = ys.size - 1

/-- The handle is that of the last node of its arena, which was not there before. -/
def Newest (p q : Program) : Added → Prop
  | .type id => IsNewest p.typeDecls q.typeDecls id
  | .header id => IsNewest p.headers q.headers id
  | .decl id => IsNewest p.decls q.decls id
  | .block id => IsNewest p.blocks q.blocks id
  | .expr id => IsNewest p.exprs q.exprs id
  | .local => True

/-- The handle points at one node in both programs, but for the locals that a block has got. -/
def SameNode (p q : Program) : Added → Prop
  | .type id => ∃ t, p.typeDecl id = .ok t ∧ q.typeDecl id = .ok t
  | .header id => ∃ h, p.header id = .ok h ∧ q.header id = .ok h
  | .decl id => ∃ d, p.decl id = .ok d ∧ q.decl id = .ok d
  | .block id => ∃ b more, p.block id = .ok b ∧
      q.block id = .ok { b with locals := b.locals ++ more }
  | .expr id => ∃ e, p.At id e ∧ q.expr id = .ok e
  | .local => True

theorem isNewest_of_size {arena : Arena} {xs ys : Array α} {n : Nat} (h : ys.size = n + 1)
    (hlt : xs.size ≤ n) : IsNewest xs ys (.ofIndex n : Handle arena) where
  longer := by omega
  last := by rw [h]; rfl
  index_eq hsize := by
    rw [Handle.index_ofIndex (by omega), h]
    rfl

theorem IsNewest.index_lt {arena : Arena} {xs ys : Array α} {id : Handle arena}
    (h : IsNewest xs ys id) : id.index < ys.size := by
  have hle : id.index ≤ ys.size - 1 := h.last ▸ Handle.index_ofIndex_le _
  have := h.longer
  omega

theorem Adds.newest (h : Adds H n p name a q) : Newest p q a := by
  cases h with
  | type => exact isNewest_of_size (Array.size_push _) (Nat.le_refl _)
  | header => exact isNewest_of_size (Array.size_push _) (Nat.le_refl _)
  | decl => exact isNewest_of_size (Array.size_push _) (Nat.le_refl _)
  | block => exact isNewest_of_size (Array.size_push _) (Nat.le_refl _)
  | expr => exact isNewest_of_size (by simp [withExprs]; omega) (Nat.le_add_right ..)

/-- What a handle points at when it is handed out it points at later on. -/
theorem Newest.sameNode (h : Newest p q a) (hr : LeadsTo q r) : SameNode q r a := by
  cases a with
  | type id =>
    obtain ⟨t, ht⟩ := Program.exists_lookup h.index_lt
    exact ⟨t, ht, Program.lookup_of_isPrefix hr.typeDecls ht⟩
  | header id =>
    obtain ⟨i, hi⟩ := Program.exists_lookup h.index_lt
    exact ⟨i, hi, Program.lookup_of_isPrefix hr.headers hi⟩
  | decl id =>
    obtain ⟨d, hd⟩ := Program.exists_lookup h.index_lt
    exact ⟨d, hd, Program.lookup_of_isPrefix hr.decls hd⟩
  | block id =>
    obtain ⟨b, hb⟩ := Program.exists_lookup h.index_lt
    obtain ⟨more, hmore⟩ := hr.blocks _ _ (Program.lookup_eq_ok_iff.1 hb)
    exact ⟨b, more, hb, Program.lookup_eq_ok_iff.2 hmore⟩
  | expr id =>
    obtain ⟨e, he⟩ := Program.exists_lookup h.index_lt
    exact ⟨e, he, Program.lookup_of_isPrefix hr.exprs he⟩
  | «local» => trivial

/-! ### Expressions carry the handles of their places -/

theorem Step.numbered (h : PlacedFrom Numbered 0 p.exprs.toList) :
    PlacedFrom Numbered 0 (s.apply p).2.exprs.toList := by
  have hends := s.ends 0 p
  generalize s.apply p = result at hends ⊢
  cases hends with
  | failed => exact h
  | grown _ hadds =>
    obtain ⟨old, -, rfl⟩ := hadds
    exact h
  | added _ hadds =>
    generalize s.headerName? = name at hadds
    cases hadds with
    | expr hnew =>
      simp only [withExprs, Array.toList_append]
      refine h.append fun i e he => ?_
      rw [Nat.zero_add]
      exact (hnew i e he).numbered
    | _ => exact h

theorem runAll_numbered (steps : List Step) (h : PlacedFrom Numbered 0 p.exprs.toList) :
    PlacedFrom Numbered 0 (runAll steps p).exprs.toList := by
  induction steps generalizing p with
  | nil => exact h
  | cons s rest ih => exact ih (Step.numbered h)

/-- A step that fails changes nothing. One that succeeds leaves what is there and puts nodes behind
it, of which it hands out the last one; only adding a local changes a node, by one local of one
block. -/
structure Step.AppendsOnly (s : Step) (p : Program) (result : Except ProgramError Added)
    (q : Program) : Prop where
  failed : ∀ e, result = .error e → q = p
  extendsTo : (∀ b d, s ≠ .addLocal b d) → p.ExtendsTo q
  addsLocal : ∀ b d a, s = .addLocal b d → result = .ok a → AddsLocal b d p q
  newest : ∀ a, result = .ok a → Newest p q a

theorem Step.Ends.appendsOnly {result : Except ProgramError Added} (h : s.Ends n p (result, q)) :
    s.AppendsOnly p result q := by
  cases h with
  | failed => exact ⟨fun _ _ => rfl, fun _ => .refl p, nofun, nofun⟩
  | added hs h =>
    refine ⟨nofun, fun _ => h.extendsTo, fun b d _ heq => absurd heq (hs b d), ?_⟩
    rintro _ ⟨⟩
    exact h.newest
  | grown hs h =>
    refine ⟨nofun, fun hne => absurd hs (hne _ _), fun b d a heq _ => ?_, ?_⟩
    · cases hs.symm.trans heq
      exact h
    · rintro _ ⟨⟩
      trivial

theorem Step.appendsOnly (s : Step) (p : Program) :
    s.AppendsOnly p (s.apply p).1 (s.apply p).2 := (s.ends 0 p).appendsOnly

/-- Building only appends: each step does, whatever it is given and whatever was built before; a
handle points at the same node after any further steps; and every expression carries the handle of
its place. -/
theorem append_only :
    (∀ (p : Program) (s : Step), s.AppendsOnly p (s.apply p).1 (s.apply p).2) ∧
    (∀ (p : Program) (s : Step) (a : Added) (rest : List Step), (s.apply p).1 = .ok a →
      SameNode (s.apply p).2 (runAll rest (s.apply p).2) a) ∧
    ∀ (steps : List Step) (i : Nat) (e : Expr), (runAll steps .empty).exprs[i]? = some e →
      e.id = .ofIndex i ∧ (i < UInt32.size → e.id.index = i) := by
  refine ⟨fun p s => s.appendsOnly p, fun p s a rest h => ?_, fun steps i e he => ?_⟩
  · exact ((s.appendsOnly p).newest a h).sameNode (runAll_leadsTo rest _)
  · have hnumbered : PlacedFrom Numbered 0 (runAll steps .empty).exprs.toList :=
      runAll_numbered steps nofun
    have hid : e.id = _ := hnumbered i e (by rwa [Array.getElem?_toList])
    rw [Nat.zero_add] at hid
    exact ⟨hid, fun hi => by rw [hid, Handle.index_ofIndex hi]⟩

end Build

end PacketC
