import PacketC.Program.Validate
import PacketC.Proofs.Program.Handles

/-! Well-formed programs. `Program.WellFormed` says what holds of every handle of a program, place
by place, and `Program.validate` accepts exactly the programs that have it. Whatever is lowered
later on relies on this and on nothing else. -/

namespace PacketC.Program

variable {arena : Arena} {ref : FieldRef}

structure WellFormed (p : Program) : Prop where
  /-- Every expression carries the handle of its place. -/
  ids : ∀ (i : Nat) (e : Expr), p.exprs[i]? = some e → e.id.index = i
  /-- The parts of an expression are in the arena, before the expression itself. -/
  parts : ∀ e ∈ p.exprs, ∀ id, e.node.Mentions id →
    id.index < p.exprs.size ∧ id.index < e.id.index
  types : ∀ ty, p.HoldsTy ty → ∀ id, ty.Mentions id → id.index < p.typeDecls.size
  paths : ∀ e ∈ p.exprs, ∀ path d, e.node = .path path → path.decl = some d →
    d.index < p.decls.size
  headerMembers : ∀ e ∈ p.exprs, ∀ m h, e.node = .member m → m.header = some h →
    h.index < p.headers.size
  fieldMembers : ∀ e ∈ p.exprs, ∀ m ref, e.node = .member m → m.field = some ref → p.Resolves ref
  initializers : ∀ d ∈ p.decls, ∀ id, d.body.Mentions id → id.index < p.exprs.size
  headerTypes : ∀ h ∈ p.headers, h.headerType.index < p.typeDecls.size
  headerNames : (p.headers.toList.map HeaderInstance.name).Nodup
  locals : ∀ b ∈ p.blocks, ∀ d ∈ b.locals, d.index < p.decls.size

/-! ### Checks that succeed -/

section Checks

variable {ε α β : Type}

theorem bind_eq_ok_iff {x : Except ε α} {f : α → Except ε β} {b : β} :
    (x >>= f) = .ok b ↔ ∃ a, x = .ok a ∧ f a = .ok b := by
  cases x with
  | error e => simp [bind, Except.bind]
  | ok a => simp [bind, Except.bind]

theorem seq_eq_ok_iff {x y : Except ε Unit} :
    (x >>= fun _ => y) = .ok () ↔ x = .ok () ∧ y = .ok () := by
  rw [bind_eq_ok_iff]
  constructor
  · rintro ⟨_, hx, hy⟩; exact ⟨hx, hy⟩
  · rintro ⟨hx, hy⟩; exact ⟨(), hx, hy⟩

theorem guard_eq_ok_iff {c : Prop} [Decidable c] {e : ε} {x : Except ε Unit} :
    (if c then ((.error e : Except ε Unit) >>= fun _ => x) else x) = .ok () ↔ ¬c ∧ x = .ok () := by
  by_cases h : c <;> simp [h, bind, Except.bind]

theorem forM_eq_ok_iff {f : α → Except ε Unit} {l : List α} :
    l.forM f = .ok () ↔ ∀ a ∈ l, f a = .ok () := by
  induction l with
  | nil => exact ⟨nofun, fun _ => rfl⟩
  | cons a l ih =>
    have hstep : (a :: l).forM f = (f a >>= fun _ => l.forM f) := rfl
    rw [hstep, seq_eq_ok_iff, ih, List.forall_mem_cons]

theorem option_forM_eq_ok_iff {f : α → Except ε Unit} {o : Option α} :
    o.forM f = .ok () ↔ ∀ a, o = some a → f a = .ok () := by
  cases o with
  | none => exact ⟨nofun, fun _ => rfl⟩
  | some a =>
    constructor
    · rintro h b ⟨⟩; exact h
    · intro h; exact h a rfl

end Checks

variable {α : Type} {nodes : Array α} {h : Handle arena} {p : Program} {e : Expr}

theorem lookup_eq_ok_iff {a : α} : lookup nodes h = .ok a ↔ nodes[h.index]? = some a := by
  unfold lookup
  cases nodes[h.index]? <;> simp

theorem ensure_eq_ok_iff {r : Except ProgramError α} : ensure r = .ok () ↔ ∃ a, r = .ok a := by
  cases r <;> simp [ensure, Except.map]

theorem ensure_lookup_eq_ok_iff : ensure (lookup nodes h) = .ok () ↔ h.index < nodes.size := by
  simp only [ensure_eq_ok_iff, lookup_eq_ok_iff]
  constructor
  · rintro ⟨a, ha⟩
    exact (Array.getElem?_eq_some_iff.1 ha).1
  · intro hlt
    exact ⟨_, Array.getElem?_eq_getElem hlt⟩

theorem field_eq_ok_iff {f : Field} :
    p.field ref = .ok f ↔ ∃ h t, p.headers[ref.header.index]? = some h ∧
      p.typeDecls[h.headerType.index]? = some t ∧ t.fields[ref.field.toNat]? = some f := by
  simp only [field, headerType, bind_eq_ok_iff, header, typeDecl, lookup_eq_ok_iff]
  constructor
  · rintro ⟨t, ⟨h, hh, ht⟩, hf⟩
    refine ⟨h, t, hh, ht, ?_⟩
    split at hf
    · rename_i hget; cases hf; exact hget
    · cases hf
  · rintro ⟨h, t, hh, ht, hf⟩
    refine ⟨t, ⟨h, hh, ht⟩, ?_⟩
    rw [hf]

theorem ensure_field_eq_ok_iff : ensure (p.field ref) = .ok () ↔ p.Resolves ref := by
  simp only [ensure_eq_ok_iff, field_eq_ok_iff, Resolves]
  constructor
  · rintro ⟨f, h, t, hf⟩; exact ⟨h, t, f, hf⟩
  · rintro ⟨h, t, f, hf⟩; exact ⟨f, h, t, hf⟩

/-! ### Each check and its condition -/

/-- Every handle in the type points at a declaration. -/
def InRange (p : Program) (ty : Ty) : Prop := ∀ id, ty.Mentions id → id.index < p.typeDecls.size

theorem inRange_specialized_iff {base : TypeId} {args : List Ty} :
    p.InRange (.specialized base args) ↔
      base.index < p.typeDecls.size ∧ ∀ ty ∈ args, p.InRange ty := by
  constructor
  · intro h
    exact ⟨h base (.base base args), fun ty hty id m => h id (.arg hty m)⟩
  · rintro ⟨hb, ha⟩ id m
    cases m with
    | base => exact hb
    | arg hty m => exact ha _ hty id m

theorem inRange_tuple_iff {items : List Ty} :
    p.InRange (.tuple items) ↔ ∀ ty ∈ items, p.InRange ty := by
  constructor
  · intro h ty hty id m
    exact h id (.item hty m)
  · rintro h id (_ | _ | _ | _ | _ | _ | _ | _ | ⟨hty, m⟩)
    exact h _ hty id m

mutual

theorem checkTy_eq_ok_iff (p : Program) : ∀ ty : Ty, checkTy p ty = .ok () ↔ p.InRange ty
  | .void | .bool | .infInt | .string | .bits .. | .varbits _ | .var _ =>
    ⟨fun _ _ m => (nomatch m), fun _ => rfl⟩
  | .name id | .external id | .struct id | .header id | .enum id | .error id => by
    simp only [checkTy, Ty.decl, typeDecl, ensure_lookup_eq_ok_iff]
    constructor
    · rintro h _ ⟨⟩; exact h
    · intro h; exact h id (by constructor)
  | .specialized base args => by
    simp only [checkTy, typeDecl, seq_eq_ok_iff, ensure_lookup_eq_ok_iff, checkTys_eq_ok_iff p args,
      inRange_specialized_iff]
  | .tuple items => by
    simp only [checkTy, checkTys_eq_ok_iff p items, inRange_tuple_iff]

theorem checkTys_eq_ok_iff (p : Program) :
    ∀ tys : List Ty, checkTys p tys = .ok () ↔ ∀ ty ∈ tys, p.InRange ty
  | [] => ⟨nofun, fun _ => rfl⟩
  | ty :: rest => by
    simp only [checkTys, seq_eq_ok_iff, checkTy_eq_ok_iff p ty, checkTys_eq_ok_iff p rest,
      List.forall_mem_cons]

end

theorem checkChild_eq_ok_iff {parent child : ExprId} :
    checkChild p parent child = .ok () ↔
      child.index < p.exprs.size ∧ child.index < parent.index := by
  simp only [checkChild, expr, seq_eq_ok_iff, ensure_lookup_eq_ok_iff, ← Nat.not_le]
  split <;> simp_all [pure, Except.pure]

theorem checkNode_eq_ok_iff {n : Node} :
    checkNode p n = .ok () ↔
      (∀ ty, n.HoldsTy ty → p.InRange ty) ∧
      (∀ path d, n = .path path → path.decl = some d → d.index < p.decls.size) ∧
      (∀ m h, n = .member m → m.header = some h → h.index < p.headers.size) ∧
      (∀ m ref, n = .member m → m.field = some ref → p.Resolves ref) := by
  cases n with
  | path path =>
    simp only [checkNode, option_forM_eq_ok_iff, decl, ensure_lookup_eq_ok_iff]
    refine ⟨fun h => ⟨nofun, ?_, nofun, nofun⟩, fun h d hd => h.2.1 path d rfl hd⟩
    rintro _ d ⟨⟩ hd; exact h d hd
  | member m =>
    simp only [checkNode, seq_eq_ok_iff, option_forM_eq_ok_iff, header, ensure_lookup_eq_ok_iff,
      ensure_field_eq_ok_iff]
    refine ⟨fun h => ⟨nofun, nofun, ?_, ?_⟩, fun h => ⟨fun d hd => h.2.2.1 m d rfl hd,
      fun ref hr => h.2.2.2 m ref rfl hr⟩⟩
    · rintro _ d ⟨⟩ hd; exact h.1 d hd
    · rintro _ ref ⟨⟩ hr; exact h.2 ref hr
  | cast dest e =>
    simp only [checkNode, checkTy_eq_ok_iff]
    refine ⟨fun h => ⟨?_, nofun, nofun, nofun⟩, fun h => h.1 dest (.dest dest e)⟩
    rintro _ ⟨⟩; exact h
  | typeName ty =>
    simp only [checkNode, checkTy_eq_ok_iff]
    refine ⟨fun h => ⟨?_, nofun, nofun, nofun⟩, fun h => h.1 ty (.typeName ty)⟩
    rintro _ ⟨⟩; exact h
  | call c =>
    simp only [checkNode, checkTys_eq_ok_iff]
    refine ⟨fun h => ⟨?_, nofun, nofun, nofun⟩, fun h ty hty => h.1 ty (.typeArg hty)⟩
    rintro ty (_ | _ | hty); exact h ty hty
  | _ => exact ⟨fun _ => ⟨nofun, nofun, nofun, nofun⟩, fun _ => rfl⟩

theorem checkSignature_eq_ok_iff {s : Signature} :
    checkSignature p s = .ok () ↔ ∀ ty, s.HoldsTy ty → p.InRange ty := by
  simp only [checkSignature, seq_eq_ok_iff, checkTy_eq_ok_iff, checkTys_eq_ok_iff]
  constructor
  · rintro ⟨hr, hp⟩ _ (_ | hq)
    · exact hr
    · exact hp _ (List.mem_map_of_mem hq)
  · intro h
    refine ⟨h _ .returned, fun ty hty => ?_⟩
    obtain ⟨q, hq, rfl⟩ := List.mem_map.1 hty
    exact h _ (.param hq)

theorem checkDecl_eq_ok_iff {d : Decl} :
    checkDecl p d = .ok () ↔ (∀ ty, d.body.HoldsTy ty → p.InRange ty) ∧
      ∀ id, d.body.Mentions id → id.index < p.exprs.size := by
  unfold checkDecl
  cases d.body with
  | var ty init =>
    simp only [seq_eq_ok_iff, checkTy_eq_ok_iff, option_forM_eq_ok_iff, expr,
      ensure_lookup_eq_ok_iff]
    constructor
    · rintro ⟨ht, he⟩
      exact ⟨by rintro _ ⟨⟩; exact ht, by rintro id ⟨⟩; exact he id rfl⟩
    · rintro ⟨ht, he⟩
      exact ⟨ht ty (.var ty init), by rintro e rfl; exact he e (.initializer ty e)⟩
  | inst ty args =>
    simp only [seq_eq_ok_iff, checkTy_eq_ok_iff, forM_eq_ok_iff, expr, ensure_lookup_eq_ok_iff]
    constructor
    · rintro ⟨ht, he⟩
      exact ⟨by rintro _ ⟨⟩; exact ht, by rintro id (_ | hid); exact he id hid⟩
    · rintro ⟨ht, he⟩
      exact ⟨ht ty (.inst ty args), fun e hmem => he e (.arg hmem)⟩
  | param ty dir =>
    rw [checkTy_eq_ok_iff]
    exact ⟨fun h => ⟨by rintro _ ⟨⟩; exact h, nofun⟩, fun h => h.1 ty (.param ty dir)⟩
  | function s =>
    rw [checkSignature_eq_ok_iff]
    exact ⟨fun h => ⟨by rintro ty (_ | _ | _ | _ | m); exact h ty m, nofun⟩,
      fun h ty m => h.1 ty (.function m)⟩
  | const ty value =>
    simp only [seq_eq_ok_iff, checkTy_eq_ok_iff, expr, ensure_lookup_eq_ok_iff]
    constructor
    · rintro ⟨ht, he⟩
      exact ⟨by rintro _ ⟨⟩; exact ht, by rintro _ ⟨⟩; exact he⟩
    · rintro ⟨ht, he⟩
      exact ⟨ht ty (.const ty value), he value (.value ty value)⟩
  | table => exact ⟨fun _ => ⟨nofun, nofun⟩, fun _ => rfl⟩
  | action => exact ⟨fun _ => ⟨nofun, nofun⟩, fun _ => rfl⟩

theorem checkTypeDecl_eq_ok_iff {t : TypeDecl} :
    checkTypeDecl p t = .ok () ↔ ∀ ty, t.body.HoldsTy ty → p.InRange ty := by
  simp only [checkTypeDecl, seq_eq_ok_iff, checkTys_eq_ok_iff, forM_eq_ok_iff,
    checkSignature_eq_ok_iff, TypeDecl.fields, TypeDecl.methods]
  cases t.body with
  | header fields =>
    refine ⟨?_, fun h => ⟨fun ty hty => ?_, nofun⟩⟩
    · rintro h _ (hf | _ | _); exact h.1 _ (List.mem_map_of_mem hf)
    · obtain ⟨f, hf, rfl⟩ := List.mem_map.1 hty
      exact h _ (.headerField hf)
  | struct fields isMetadata =>
    refine ⟨?_, fun h => ⟨fun ty hty => ?_, nofun⟩⟩
    · rintro h _ (_ | hf | _); exact h.1 _ (List.mem_map_of_mem hf)
    · obtain ⟨f, hf, rfl⟩ := List.mem_map.1 hty
      exact h _ (.structField hf)
  | external params methods =>
    refine ⟨?_, fun h => ⟨nofun, fun s hs ty m => h ty (.method hs m)⟩⟩
    rintro h ty (_ | _ | ⟨hs, m⟩); exact h.2 _ hs ty m
  | enum => exact ⟨fun _ => nofun, fun _ => ⟨nofun, nofun⟩⟩
  | error => exact ⟨fun _ => nofun, fun _ => ⟨nofun, nofun⟩⟩

theorem checkExpr_eq_ok_iff {i : Nat} :
    checkExpr p e i = .ok () ↔ e.id.index = i ∧ p.InRange e.ty ∧
      (∀ id, e.node.Mentions id → id.index < p.exprs.size ∧ id.index < e.id.index) ∧
      checkNode p e.node = .ok () := by
  simp only [checkExpr, guard_eq_ok_iff, seq_eq_ok_iff, checkTy_eq_ok_iff, forM_eq_ok_iff,
    checkChild_eq_ok_iff, Node.mem_children_iff, ne_eq, Decidable.not_not]

theorem checkHeaders_eq_ok_iff {hs : List HeaderInstance} {seen : List String} :
    checkHeaders p seen hs = .ok () ↔
      (∀ h ∈ hs, h.headerType.index < p.typeDecls.size) ∧
      (hs.map HeaderInstance.name).Nodup ∧ ∀ h ∈ hs, h.name ∉ seen := by
  induction hs generalizing seen with
  | nil => exact ⟨fun _ => ⟨nofun, .nil, nofun⟩, fun _ => rfl⟩
  | cons h rest ih =>
    simp only [checkHeaders, typeDecl, seq_eq_ok_iff, ensure_lookup_eq_ok_iff, guard_eq_ok_iff, ih,
      List.map_cons, List.nodup_cons, List.mem_map, List.mem_cons, not_or, List.contains_iff_mem,
      forall_eq_or_imp]
    constructor
    · rintro ⟨ht, hs, hts, hnd, hrest⟩
      refine ⟨⟨ht, hts⟩, ⟨?_, hnd⟩, hs, fun k hk => (hrest k hk).2⟩
      rintro ⟨k, hk, hname⟩
      exact (hrest k hk).1 hname
    · rintro ⟨⟨ht, hts⟩, ⟨hfresh, hnd⟩, hs, hrest⟩
      exact ⟨ht, hs, hts, hnd, fun k hk => ⟨fun hname => hfresh ⟨k, hk, hname⟩, hrest k hk⟩⟩

theorem checkBlock_eq_ok_iff {b : Block} :
    checkBlock p b = .ok () ↔ ∀ d ∈ b.locals, d.index < p.decls.size := by
  simp only [checkBlock, forM_eq_ok_iff, decl, ensure_lookup_eq_ok_iff]

/-! ### The whole check -/

theorem validate_checks : p.validate = .ok () ↔
    (∀ (i : Nat) (e : Expr), p.exprs[i]? = some e → checkExpr p e i = .ok ()) ∧
    (∀ d ∈ p.decls, checkDecl p d = .ok ()) ∧
    (∀ t ∈ p.typeDecls, checkTypeDecl p t = .ok ()) ∧
    checkHeaders p [] p.headers.toList = .ok () ∧
    (∀ b ∈ p.blocks, checkBlock p b = .ok ()) := by
  have hexprs : (∀ a ∈ p.exprs.toList.zipIdx, checkExpr p a.1 a.2 = .ok ()) ↔
      ∀ (i : Nat) (e : Expr), p.exprs[i]? = some e → checkExpr p e i = .ok () := by
    constructor
    · intro h i e he
      exact h (e, i) (List.mk_mem_zipIdx_iff_getElem?.2 (by simpa using he))
    · rintro h ⟨e, i⟩ hmem
      exact h i e (by simpa using List.mk_mem_zipIdx_iff_getElem?.1 hmem)
  simp only [validate, seq_eq_ok_iff, forM_eq_ok_iff, hexprs, Array.mem_toList_iff]

theorem WellFormed.of_validate (h : p.validate = .ok ()) : p.WellFormed := by
  obtain ⟨hexprs, hdecls, htypes, hheaders, hblocks⟩ := validate_checks.1 h
  have hexpr : ∀ e ∈ p.exprs, checkExpr p e e.id.index = .ok () := by
    intro e he
    obtain ⟨i, hi⟩ := Array.mem_iff_getElem?.1 he
    have := hexprs i e hi
    rwa [(checkExpr_eq_ok_iff.1 this).1]
  have hnode : ∀ e ∈ p.exprs, checkNode p e.node = .ok () := fun e he =>
    (checkExpr_eq_ok_iff.1 (hexpr e he)).2.2.2
  obtain ⟨hheaderTypes, hnames, -⟩ := checkHeaders_eq_ok_iff.1 hheaders
  exact {
    ids := fun i e hi => (checkExpr_eq_ok_iff.1 (hexprs i e hi)).1
    parts := fun e he => (checkExpr_eq_ok_iff.1 (hexpr e he)).2.2.1
    types := by
      rintro _ (he | ⟨he, m⟩ | ⟨hd, m⟩ | ⟨ht, m⟩)
      · exact (checkExpr_eq_ok_iff.1 (hexpr _ he)).2.1
      · exact (checkNode_eq_ok_iff.1 (hnode _ he)).1 _ m
      · exact (checkDecl_eq_ok_iff.1 (hdecls _ hd)).1 _ m
      · exact checkTypeDecl_eq_ok_iff.1 (htypes _ ht) _ m
    paths := fun e he => (checkNode_eq_ok_iff.1 (hnode e he)).2.1
    headerMembers := fun e he => (checkNode_eq_ok_iff.1 (hnode e he)).2.2.1
    fieldMembers := fun e he => (checkNode_eq_ok_iff.1 (hnode e he)).2.2.2
    initializers := fun d hd => (checkDecl_eq_ok_iff.1 (hdecls d hd)).2
    headerTypes := fun h hh => hheaderTypes h (Array.mem_toList_iff.2 hh)
    headerNames := hnames
    locals := fun b hb => checkBlock_eq_ok_iff.1 (hblocks b hb) }

theorem WellFormed.validates (wf : p.WellFormed) : p.validate = .ok () := by
  refine validate_checks.2 ⟨fun i e hi => ?_, fun d hd => ?_, fun t ht => ?_, ?_, fun b hb => ?_⟩
  · have he : e ∈ p.exprs := Array.mem_of_getElem? hi
    refine checkExpr_eq_ok_iff.2 ⟨wf.ids i e hi, wf.types _ (.expr he), wf.parts e he, ?_⟩
    exact checkNode_eq_ok_iff.2 ⟨fun ty m => wf.types ty (.node he m), wf.paths e he,
      wf.headerMembers e he, wf.fieldMembers e he⟩
  · exact checkDecl_eq_ok_iff.2 ⟨fun ty m => wf.types ty (.decl hd m), wf.initializers d hd⟩
  · exact checkTypeDecl_eq_ok_iff.2 fun ty m => wf.types ty (.typeDecl ht m)
  · exact checkHeaders_eq_ok_iff.2
      ⟨fun h hh => wf.headerTypes h (Array.mem_toList_iff.1 hh), wf.headerNames, nofun⟩
  · exact checkBlock_eq_ok_iff.2 (wf.locals b hb)

/-! ### Lookups in a well-formed program -/

theorem expr_eq_ok_iff {id : ExprId} :
    p.expr id = .ok e ↔ p.exprs[id.index]? = some e := lookup_eq_ok_iff

theorem mem_of_lookup {a : α} (ha : lookup nodes h = .ok a) :
    a ∈ nodes := Array.mem_of_getElem? (lookup_eq_ok_iff.1 ha)

theorem mem_of_expr {id : ExprId} (h : p.At id e) : e ∈ p.exprs := mem_of_lookup h

theorem exists_lookup (hlt : h.index < nodes.size) : ∃ a, lookup nodes h = .ok a :=
  ensure_eq_ok_iff.1 (ensure_lookup_eq_ok_iff.2 hlt)

theorem Resolves.exists_header (h : p.Resolves ref) : ∃ i, p.header ref.header = .ok i := by
  obtain ⟨i, t, f, hi, -⟩ := h
  exact ⟨i, lookup_eq_ok_iff.2 hi⟩

theorem Resolves.exists_field (h : p.Resolves ref) :
    ∃ f, p.field ref = .ok f := ensure_eq_ok_iff.1 (ensure_field_eq_ok_iff.2 h)

namespace WellFormed

variable {p : Program} {id : ExprId} {e : Expr}

variable (wf : p.WellFormed)

include wf

theorem id_eq (h : p.At id e) : e.id = id :=
  Handle.ext_index (wf.ids _ e (expr_eq_ok_iff.1 h))

theorem part_lt {child : ExprId} (h : p.Part id child) : child.index < id.index := by
  obtain ⟨e, he, hm⟩ := h
  have := (wf.parts e (mem_of_expr he) child hm).2
  rwa [wf.id_eq he] at this

theorem below_lt {target : ExprId} (h : p.Below id target) : target.index < id.index := by
  obtain ⟨child, hp, hr⟩ := h
  induction hr generalizing id with
  | refl => exact wf.part_lt hp
  | part h _ ih => exact Nat.lt_trans (ih h) (wf.part_lt hp)

/-- Only what comes before an expression is reached from it. -/
theorem reached_of_take {n : Nat} {f : Expr → Bool} (hid : id.index < n)
    (h : (p.exprs.toList.take n).all f = true) {target : ExprId} (hr : p.Reaches id target)
    (he : p.At target e) : f e = true := by
  have hle : target.index ≤ id.index := by
    cases hr with
    | refl => exact Nat.le_refl _
    | part hp hr => exact Nat.le_of_lt (wf.below_lt ⟨_, hp, hr⟩)
  refine List.all_eq_true.1 h e (List.mem_of_getElem? (i := target.index) ?_)
  rw [List.getElem?_take_of_lt (Nat.lt_of_le_of_lt hle hid), Array.getElem?_toList]
  exact expr_eq_ok_iff.1 he

theorem exists_part (h : p.At id e) {child : ExprId} (m : e.node.Mentions child) :
    ∃ c, p.At child c :=
  exists_lookup (wf.parts e (mem_of_expr h) child m).1

theorem resolves (h : p.At id e) {ref : FieldRef} (hr : e.fieldRef? = some ref) :
    p.Resolves ref := by
  unfold Expr.fieldRef? Expr.member? at hr
  split at hr
  · rename_i m hm
    exact wf.fieldMembers e (mem_of_expr h) m ref hm hr
  · cases hr

theorem exists_header (h : p.At id e) {i : HeaderId} (hi : e.headerRef? = some i) :
    ∃ d, p.header i = .ok d := by
  unfold Expr.headerRef? Expr.member? at hi
  split at hi
  · rename_i m hm
    exact exists_lookup (wf.headerMembers e (mem_of_expr h) m i hm hi)
  · cases hi

theorem exists_typeDecl {ty : Ty} (h : p.HoldsTy ty) {t : TypeId} (m : ty.Mentions t) :
    ∃ d, p.typeDecl t = .ok d := exists_lookup (wf.types ty h t m)

end WellFormed

/-- The check accepts a program if and only if it is well formed. -/
theorem validate_eq_ok_iff (p : Program) : p.validate = .ok () ↔ p.WellFormed :=
  ⟨.of_validate, WellFormed.validates⟩

end PacketC.Program

/-! ### Nodes of small programs -/

namespace PacketC.Expr

/-- All headers of the packet. -/
abbrev packet : Expr := ⟨⟨0⟩, .void, .path ⟨"headers", none, true⟩⟩

/-- The first of them. -/
abbrev packetHeader : Expr := ⟨⟨1⟩, .header ⟨0⟩, .member ⟨⟨0⟩, "h", some ⟨0⟩, none⟩⟩

section

variable (n : UInt32) (ty : Ty) (name : String)

/-- A field of that header. -/
abbrev packetField (i : UInt64) : Expr := ⟨⟨n⟩, ty, .member ⟨⟨1⟩, name, none, some ⟨⟨0⟩, i⟩⟩⟩

abbrev free : Expr := ⟨⟨n⟩, ty, .path ⟨name, none, false⟩⟩

abbrev declared (d : UInt32) : Expr := ⟨⟨n⟩, ty, .path ⟨name, some ⟨d⟩, false⟩⟩

abbrev method (base : UInt32) : Expr := ⟨⟨n⟩, .void, .member ⟨⟨base⟩, name, none, none⟩⟩

abbrev called (m : UInt32) (args : List ExprId) : Expr := ⟨⟨n⟩, .void, .call ⟨⟨m⟩, [], args⟩⟩

abbrev list (items : List ExprId) : Expr := ⟨⟨n⟩, .void, .list items⟩

abbrev number (width : UInt32) (value : Int) : Expr :=
  ⟨⟨n⟩, .bits width false, .constant value 10⟩

abbrev binary (op : BinaryOp) (l r : UInt32) : Expr := ⟨⟨n⟩, ty, .binary op ⟨l⟩ ⟨r⟩⟩

end

end PacketC.Expr
