import PacketC.Lower.Statement
import PacketC.Proofs.Program.WellFormed

/-! Programs that grow at the ends of their arenas. A handle that is in range in the smaller program
points at the same node of the larger one, so what is found in the one is found in the other, and a
question whose answer hangs on such handles alone has the same answer in both. Nothing is assumed of
the nodes that are added. -/

namespace PacketC

namespace Program

/-- Each arena of the first program is the start of the same arena of the second. -/
structure ExtendsTo (p q : Program) : Prop where
  exprs : p.exprs.toList <+: q.exprs.toList
  decls : p.decls.toList <+: q.decls.toList
  typeDecls : p.typeDecls.toList <+: q.typeDecls.toList
  headers : p.headers.toList <+: q.headers.toList
  blocks : p.blocks.toList <+: q.blocks.toList

theorem getElem?_of_isPrefix {α : Type} {xs ys : Array α} (h : xs.toList <+: ys.toList) {i : Nat}
    {a : α} (ha : xs[i]? = some a) : ys[i]? = some a := by
  rw [← Array.getElem?_toList] at ha ⊢
  obtain ⟨rest, hrest⟩ := h
  obtain ⟨hi, -⟩ := List.getElem?_eq_some_iff.1 ha
  rw [← hrest, List.getElem?_append_left hi, ha]

theorem lookup_of_isPrefix {arena : Arena} {α : Type} {xs ys : Array α}
    (h : xs.toList <+: ys.toList) {id : Handle arena} {a : α} (ha : lookup xs id = .ok a) :
    lookup ys id = .ok a :=
  lookup_eq_ok_iff.2 (getElem?_of_isPrefix h (lookup_eq_ok_iff.1 ha))

end Program

theorem Lower.node_of_member? {e : Expr} {m : Member} (h : e.member? = some m) :
    e.node = .member m := by
  unfold Expr.member? at h
  split at h
  · rename_i hnode; cases h; exact hnode
  · cases h

/-- The type that a type refers to stands in it. -/
theorem Ty.mentions_of_decl {ty : Ty} {id : TypeId} (h : ty.decl = some id) : ty.Mentions id := by
  cases ty with
  | name | external | struct | header | enum | error => cases h; constructor
  | specialized base args => cases h; exact .base id args
  | _ => cases h

namespace Program.ExtendsTo

theorem refl (p : Program) : p.ExtendsTo p :=
  ⟨List.prefix_rfl, List.prefix_rfl, List.prefix_rfl, List.prefix_rfl, List.prefix_rfl⟩

variable {p q : Program} (h : p.ExtendsTo q) {ty : Ty} {receiver : Expr}

include h

/-! ### Lookups -/

theorem expr {id : ExprId} {e : Expr} (he : p.At id e) : q.expr id = .ok e :=
  lookup_of_isPrefix h.exprs he

theorem decl {id : DeclId} {d : Decl} (hd : p.decl id = .ok d) : q.decl id = .ok d :=
  lookup_of_isPrefix h.decls hd

theorem typeDecl {id : TypeId} {t : TypeDecl} (ht : p.typeDecl id = .ok t) :
    q.typeDecl id = .ok t :=
  lookup_of_isPrefix h.typeDecls ht

theorem header {id : HeaderId} {i : HeaderInstance} (hi : p.header id = .ok i) :
    q.header id = .ok i :=
  lookup_of_isPrefix h.headers hi

theorem field {ref : FieldRef} {f : Field} (hf : p.field ref = .ok f) : q.field ref = .ok f := by
  obtain ⟨i, t, hi, ht, hf⟩ := field_eq_ok_iff.1 hf
  exact field_eq_ok_iff.2
    ⟨i, t, getElem?_of_isPrefix h.headers hi, getElem?_of_isPrefix h.typeDecls ht, hf⟩

theorem packetField {ref : FieldRef} {l : PacketField} (hl : Program.packetField ref p = .ok l) :
    Program.packetField ref q = .ok l := by
  obtain ⟨i, hi, hl⟩ := bind_eq_ok_iff.1 hl
  obtain ⟨t, ht, hl⟩ := bind_eq_ok_iff.1 hl
  obtain ⟨f, hf, hl⟩ := bind_eq_ok_iff.1 hl
  refine bind_eq_ok_iff.2 ⟨i, h.header hi, bind_eq_ok_iff.2 ⟨t, h.typeDecl ht, ?_⟩⟩
  exact bind_eq_ok_iff.2 ⟨f, h.field hf, hl⟩

theorem keysetParts {keyset : ExprId} {parts : List ExprId}
    (hp : Lower.keysetParts p keyset = .ok parts) : Lower.keysetParts q keyset = .ok parts := by
  obtain ⟨e, he, hp⟩ := bind_eq_ok_iff.1 hp
  exact bind_eq_ok_iff.2 ⟨e, h.expr he, hp⟩

theorem digestItems {fields : ExprId} {items : List ExprId}
    (hi : Lower.Digest.items p fields = .ok items) : Lower.Digest.items q fields = .ok items := by
  obtain ⟨e, he, hi⟩ := bind_eq_ok_iff.1 hi
  exact bind_eq_ok_iff.2 ⟨e, h.expr he, hi⟩

theorem functionSignature {path : Path} {signature : Option Signature}
    (hs : Lower.functionSignature? p path = .ok signature) :
    Lower.functionSignature? q path = .ok signature := by
  unfold Lower.functionSignature? at hs ⊢
  split at hs
  · exact hs
  · rename_i d _
    cases hd : p.decl d with
    | error e => rw [hd] at hs; cases hs
    | ok b => rw [h.decl hd, ← hd]; exact hs

theorem enumMemberName {name : String} {cName : Option String}
    (hn : Lower.enumMemberName p ty name = .ok cName) :
    Lower.enumMemberName q ty name = .ok cName := by
  unfold Lower.enumMemberName at hn ⊢
  split at hn
  · obtain ⟨t, ht, hn⟩ := bind_eq_ok_iff.1 hn
    exact bind_eq_ok_iff.2 ⟨t, h.typeDecl ht, hn⟩
  · obtain ⟨t, ht, hn⟩ := bind_eq_ok_iff.1 hn
    exact bind_eq_ok_iff.2 ⟨t, h.typeDecl ht, hn⟩
  · exact hn

/-! ### Questions about types in range -/

theorem typeDecl_eq {id : TypeId} (hid : id.index < p.typeDecls.size) :
    q.typeDecl id = p.typeDecl id := by
  obtain ⟨t, ht⟩ : ∃ t, p.typeDecl id = .ok t := exists_lookup hid
  rw [ht, h.typeDecl ht]

theorem typeName?_eq (hty : p.InRange ty) : q.typeName? ty = p.typeName? ty := by
  unfold Program.typeName?
  cases hd : ty.decl with
  | none => rfl
  | some id =>
    have hid := hty id (Ty.mentions_of_decl hd)
    have hget : p.typeDecls[id.index]? = some p.typeDecls[id.index] := Array.getElem?_eq_getElem hid
    rw [Option.bind_eq_bind, Option.bind_eq_bind, Option.bind_some, Option.bind_some,
      getElem?_of_isPrefix h.typeDecls hget, hget]

theorem parserFieldText_eq (hty : p.InRange ty) (path : Path) (name : String) :
    Lower.parserFieldText q path ty name = Lower.parserFieldText p path ty name := by
  unfold Lower.parserFieldText
  rw [h.typeName?_eq hty]

theorem isHeaderTy_eq (hty : p.InRange ty) : Lower.isHeaderTy q ty = Lower.isHeaderTy p ty := by
  cases ty with
  | name id => simp only [Lower.isHeaderTy, h.typeDecl_eq (hty id (.name id))]
  | _ => rfl

theorem isMetadataTy_eq (hty : p.InRange ty) :
    Lower.isMetadataTy q ty = Lower.isMetadataTy p ty := by
  unfold Lower.isMetadataTy
  split
  · rfl
  · rename_i id hd
    rw [h.typeDecl_eq (hty id (Ty.mentions_of_decl hd))]

theorem externalOf_eq (hty : p.InRange ty) : Lower.externalOf q ty = Lower.externalOf p ty := by
  unfold Lower.externalOf
  cases ty with
  | external id => simp only [pure_bind]; rw [h.typeDecl_eq (hty id (.external id))]
  | name id => simp only [pure_bind]; rw [h.typeDecl_eq (hty id (.name id))]
  | specialized base args => simp only [pure_bind]; rw [h.typeDecl_eq (hty base (.base base args))]
  | _ => rfl

theorem externalTarget_eq (hty : p.InRange receiver.ty) (method : String) :
    Lower.ExternalTarget.of q receiver method = Lower.ExternalTarget.of p receiver method := by
  unfold Lower.ExternalTarget.of
  rw [h.externalOf_eq hty]

theorem headerMethod?_eq (hty : p.InRange receiver.ty) (method : String) :
    Lower.headerMethod? q receiver method = Lower.headerMethod? p receiver method := by
  unfold Lower.headerMethod?
  rw [h.isHeaderTy_eq hty]

/-! ### Questions about paths and blocks -/

theorem appliedTable?_eq
    (hdecl : ∀ path d, receiver.node = .path path → path.decl = some d → d.index < p.decls.size) :
    Lower.appliedTable? q receiver = Lower.appliedTable? p receiver := by
  unfold Lower.appliedTable? Expr.path?
  split
  · rename_i path hnode
    cases hd : path.decl with
    | none => simp only [hd, Option.bind_eq_bind, Option.bind_some, Option.bind_none]
    | some d =>
      obtain ⟨b, hb⟩ : ∃ b, p.decl d = .ok b := exists_lookup (hdecl path d hnode hd)
      simp only [hd, Option.bind_eq_bind, Option.bind_some, hb, h.decl hb]
  · rfl

theorem blocks_eq {block : BlockId} (hb : block.index < p.blocks.size) :
    q.blocks[block.index]? = p.blocks[block.index]? := by
  have hget : p.blocks[block.index]? = some p.blocks[block.index] := Array.getElem?_eq_getElem hb
  rw [getElem?_of_isPrefix h.blocks hget, hget]

theorem isLocalOf_eq {block : BlockId} (hb : block.index < p.blocks.size) (id : DeclId) :
    q.isLocalOf block id = p.isLocalOf block id := by
  unfold Program.isLocalOf
  rw [h.blocks_eq hb]

theorem sendsHeader_eq (wf : p.WellFormed) {id : ExprId} {method : Expr}
    (hm : p.At id method) (packetOutType : String) :
    Lower.sendsHeader q packetOutType method = Lower.sendsHeader p packetOutType method := by
  unfold Lower.sendsHeader
  split
  · rfl
  · rename_i m hmember
    have hbase : method.node.Mentions m.base := Lower.node_of_member? hmember ▸ .base m
    obtain ⟨receiver, hr⟩ := wf.exists_part hm hbase
    simp only [hr, h.expr hr, h.typeName?_eq (wf.types _ (.expr (mem_of_expr hr)))]

end Program.ExtendsTo

end PacketC
