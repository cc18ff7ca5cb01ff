import PacketC.Proofs.Build.Appends

/-! What a well-scoped script builds. A program under construction is sound: all of it is in order
but for type handles, which may run ahead of the declarations. Each step of a script keeps that and
hands out handles that are in range, so at the end, when all types are declared, the check of the
program accepts it. Only expressions can be too many: a handle has 32 bits, and an expression whose
handle has wrapped around does not carry the handle of its place. -/

namespace PacketC.Build

variable {n i : Nat} {p q : Program} {ty : Ty} {node : Node} {s : Step} {a : Added}

/-! ### Programs that grow -/

theorem lt_of_isPrefix {α : Type} {xs ys : Array α} (h : xs.toList <+: ys.toList)
    (hi : i < xs.size) : i < ys.size := Nat.lt_of_lt_of_le hi h.length_le

theorem Newest.issued (h : Newest p q a) : Issued q a := by
  cases a with
  | «local» => trivial
  | _ => exact h.index_lt

theorem Issued.mono (h : LeadsTo p q) (ha : Issued p a) : Issued q a := by
  cases a with
  | type id => exact lt_of_isPrefix h.typeDecls ha
  | header id => exact lt_of_isPrefix h.headers ha
  | decl id => exact lt_of_isPrefix h.decls ha
  | block id =>
    obtain ⟨_, hb⟩ := h.blocks _ _ (Array.getElem?_eq_getElem ha)
    exact (Array.getElem?_eq_some_iff.1 hb).1
  | expr id => exact lt_of_isPrefix h.exprs ha
  | «local» => trivial

theorem Fits.mono (h : LeadsTo p q) (hty : Fits n p ty) : Fits n q ty :=
  fun id m => (hty id m).imp_right (lt_of_isPrefix h.typeDecls)

theorem NodeFits.mono (h : LeadsTo p q) (hn : NodeFits n p i node) : NodeFits n q i node where
  parts := hn.parts
  types := fun ty m => (hn.types ty m).mono h
  paths := fun path d hp hd => lt_of_isPrefix h.decls (hn.paths path d hp hd)
  headers := fun m i hm hi => lt_of_isPrefix h.headers (hn.headers m i hm hi)
  fields := fun m ref hm hr => by
    obtain ⟨i, t, f, hi, ht, hf⟩ := hn.fields m ref hm hr
    exact ⟨i, t, f, Program.getElem?_of_isPrefix h.headers hi,
      Program.getElem?_of_isPrefix h.typeDecls ht, hf⟩

theorem DeclFits.mono (h : LeadsTo p q) {d : Decl} (hd : DeclFits n p d) : DeclFits n q d where
  types := fun ty m => (hd.types ty m).mono h
  exprs := fun id m => lt_of_isPrefix h.exprs (hd.exprs id m)

namespace Sound

theorem empty (n : Nat) : Sound n .empty := by
  constructor <;> simp [Program.empty]

/-- A sound program with distinct header names is accepted once all types are declared, unless its
expressions are too many. -/
theorem wellFormed_iff (h : Sound n p) (hn : n ≤ p.typeDecls.size)
    (hnames : (p.headers.toList.map HeaderInstance.name).Nodup) :
    p.WellFormed ↔ p.exprs.size ≤ UInt32.size := by
  constructor
  · refine fun wf => Nat.le_of_not_lt fun hlt => ?_
    have hget := Array.getElem?_eq_getElem hlt
    have hid := wf.ids _ _ hget
    rw [h.ids _ _ hget] at hid
    exact absurd hid (by decide)
  · intro hsize
    have hplace : ∀ e ∈ p.exprs, ∃ i, i < p.exprs.size ∧ e.id.index = i ∧
        NodeFits n p i e.node := fun e he => by
      obtain ⟨i, hi⟩ := Array.mem_iff_getElem?.1 he
      have hlt := (Array.getElem?_eq_some_iff.1 hi).1
      exact ⟨i, hlt, by rw [h.ids i e hi, Handle.index_ofIndex (by omega)], h.nodes i e hi⟩
    have hfits : ∀ ty, Fits n p ty → p.InRange ty := fun ty hty id m => by
      have := hty id m
      omega
    exact {
      ids := fun i e he => by
        have hlt := (Array.getElem?_eq_some_iff.1 he).1
        rw [h.ids i e he, Handle.index_ofIndex (by omega)]
      parts := fun e he id m => by
        obtain ⟨i, hi, hid, hn⟩ := hplace e he
        have := hn.parts id m
        omega
      types := by
        rintro _ (he | ⟨he, m⟩ | ⟨hd, m⟩ | ⟨ht, m⟩)
        · exact hfits _ (h.exprTypes _ he)
        · obtain ⟨i, -, -, hn⟩ := hplace _ he
          exact hfits _ (hn.types _ m)
        · exact hfits _ ((h.decls _ hd).types _ m)
        · exact hfits _ (h.typeDecls _ ht _ m)
      paths := fun e he => by
        obtain ⟨i, -, -, hn⟩ := hplace e he
        exact hn.paths
      headerMembers := fun e he => by
        obtain ⟨i, -, -, hn⟩ := hplace e he
        exact hn.headers
      fieldMembers := fun e he => by
        obtain ⟨i, -, -, hn⟩ := hplace e he
        exact hn.fields
      initializers := fun d hd => (h.decls d hd).exprs
      headerTypes := h.headers
      headerNames := hnames
      locals := h.locals }

/-- Soundness moves to a larger program, as far as the nodes that are new there fit it. -/
theorem grow (h : Sound n p) (hw : LeadsTo p q)
    (hexprs : ∀ (i : Nat) (e : Expr), q.exprs[i]? = some e → p.exprs[i]? = some e ∨
      e.id = .ofIndex i ∧ Fits n p e.ty ∧ NodeFits n p i e.node)
    (hdecls : ∀ d ∈ q.decls, d ∈ p.decls ∨ DeclFits n p d)
    (htypes : ∀ t ∈ q.typeDecls, t ∈ p.typeDecls ∨ ∀ ty, t.body.HoldsTy ty → Fits n p ty)
    (hheaders : ∀ i ∈ q.headers, i ∈ p.headers ∨ i.headerType.index < p.typeDecls.size)
    (hblocks : ∀ b ∈ q.blocks, ∀ d ∈ b.locals, d.index < p.decls.size) : Sound n q where
  ids := fun i e he => (hexprs i e he).elim (h.ids i e) And.left
  exprTypes := fun e he => by
    obtain ⟨i, hi⟩ := Array.mem_iff_getElem?.1 he
    rcases hexprs i e hi with hold | ⟨-, hty, -⟩
    · exact (h.exprTypes e (Array.mem_of_getElem? hold)).mono hw
    · exact hty.mono hw
  nodes := fun i e he => by
    rcases hexprs i e he with hold | ⟨-, -, hn⟩
    · exact (h.nodes i e hold).mono hw
    · exact hn.mono hw
  decls := fun d hd => ((hdecls d hd).elim (h.decls d) id).mono hw
  typeDecls := fun t ht ty m => (((htypes t ht).elim (h.typeDecls t) id) ty m).mono hw
  headers := fun i hi => lt_of_isPrefix hw.typeDecls ((hheaders i hi).elim (h.headers i) id)
  locals := fun b hb d hd => Nat.lt_of_lt_of_le (hblocks b hb d hd) hw.decls.length_le

end Sound

/-! ### Steps -/

theorem Adds.sound {H : Prop} {name : Option String} (hadds : Adds H n p name a q) (hH : H)
    (h : Sound n p) : Sound n q := by
  have hw : LeadsTo p q := .of_extendsTo hadds.extendsTo
  cases hadds with
  | type t ht =>
    refine h.grow hw (fun _ _ => .inl) (fun _ => .inl) (fun t' ht' => ?_) (fun _ => .inl) h.locals
    exact (Array.mem_push.1 ht').imp_right (by rintro rfl; exact ht hH)
  | header i hi =>
    refine h.grow hw (fun _ _ => .inl) (fun _ => .inl) (fun _ => .inl) (fun i' hi' => ?_) h.locals
    exact (Array.mem_push.1 hi').imp_right (by rintro rfl; exact hi hH)
  | decl d hd =>
    refine h.grow hw (fun _ _ => .inl) (fun d' hd' => ?_) (fun _ => .inl) (fun _ => .inl) h.locals
    exact (Array.mem_push.1 hd').imp_right (by rintro rfl; exact hd hH)
  | block b hb =>
    refine h.grow hw (fun _ _ => .inl) (fun _ => .inl) (fun _ => .inl) (fun _ => .inl)
      fun c hc => ?_
    rcases Array.mem_push.1 hc with hold | rfl
    · exact h.locals c hold
    · rw [hb]; exact nofun
  | expr hnew =>
    refine h.grow hw (fun i e he => ?_) (fun _ => .inl) (fun _ => .inl) (fun _ => .inl) h.locals
    by_cases hi : i < p.exprs.size
    · exact .inl (by rwa [withExprs, Array.getElem?_append_left hi] at he)
    · rw [withExprs, Array.getElem?_append_right (by omega), List.getElem?_toArray] at he
      have hfits := hnew _ e he
      rw [Nat.add_sub_cancel' (by omega)] at hfits
      exact .inr ⟨hfits.numbered, hfits.type hH, hfits.node hH⟩

theorem AddsLocal.sound {b : BlockId} {d : DeclId} (hadds : AddsLocal b d p q) (h : Sound n p)
    (hd : d.index < p.decls.size) : Sound n q := by
  have hw := hadds.leadsTo
  obtain ⟨old, hold, rfl⟩ := hadds
  refine h.grow hw (fun _ _ => .inl) (fun _ => .inl) (fun _ => .inl) (fun _ => .inl) fun c hc => ?_
  rcases Array.mem_or_eq_of_mem_setIfInBounds hc with hc | rfl
  · exact h.locals c hc
  · exact List.forall_mem_append.2
      ⟨h.locals old (Program.mem_of_lookup hold), List.forall_mem_singleton.2 hd⟩

/-- A step that takes only what is there fails for nothing but a name that is not there, and leaves
a sound program behind. -/
theorem Step.outcome (s : Step) (h : s.Grounded n p) :
    s.Tolerates p (s.apply p).1 ∧ Sound n (s.apply p).2 ∧
      (s.apply p).2.headers.toList.map HeaderInstance.name =
        p.headers.toList.map HeaderInstance.name ++ s.headerName?.toList := by
  have hends := s.ends n p
  generalize s.apply p = result at hends ⊢
  cases hends with
  | failed hname htol => exact ⟨htol h, h.sound, by simp [hname]⟩
  | added _ hadds =>
    refine ⟨by cases s <;> trivial, hadds.sound h h.sound, ?_⟩
    generalize s.headerName? = name at hadds ⊢
    cases hadds <;> simp [withExprs]
  | @grown b d _ hs hadds =>
    subst hs
    refine ⟨trivial, hadds.sound h.sound (h.handles _ (.localDecl b d)), ?_⟩
    obtain ⟨old, -, rfl⟩ := hadds
    simp [Step.headerName?]

/-! ### Scripts -/

/-- The run lemma. The handles that were handed out stay in range, so each step finds what it
takes. -/
theorem outcome_along {steps : List Step} {handed : List Added} (h : Sound n p)
    (hissued : ∀ a ∈ handed, Issued p a) (hscoped : Along Step.Scoped handed p steps)
    (hfits : Along (fun _ => Step.FieldFits) handed p steps)
    (htypes : ∀ s ∈ steps, ∀ ty, s.TakesTy ty → ∀ id, ty.Mentions id → id.index < n) :
    Along (fun _ p s => s.Tolerates p (s.apply p).1) handed p steps ∧ Sound n (runAll steps p) ∧
      (runAll steps p).headers.toList.map HeaderInstance.name =
        p.headers.toList.map HeaderInstance.name ++ steps.filterMap Step.headerName? := by
  induction steps generalizing handed p with
  | nil => exact ⟨trivial, h, by simp [runAll]⟩
  | cons s rest ih =>
    obtain ⟨⟨hhandles, hlooks⟩, hscoped⟩ := hscoped
    obtain ⟨hfit, hfits⟩ := hfits
    obtain ⟨htolerated, hsound, hname⟩ := s.outcome ⟨h, fun a ha => hissued a (hhandles a ha),
      hlooks, fun ty ht id m => .inl (htypes s (.head rest) ty ht id m), hfit⟩
    have hnext : ∀ a ∈ handed ++ (s.apply p).1.toOption.toList, Issued (s.apply p).2 a := by
      intro a ha
      rcases List.mem_append.1 ha with ha | ha
      · exact (hissued a ha).mono (s.leadsTo p)
      · refine ((s.appendsOnly p).newest a ?_).issued
        cases happly : (s.apply p).1 <;> simp_all [Except.toOption]
    obtain ⟨htol, hsound, hnames⟩ := ih hsound hnext hscoped hfits
      fun t ht => htypes t (List.mem_cons_of_mem s ht)
    refine ⟨⟨htolerated, htol⟩, hsound, ?_⟩
    show ((runAll rest (s.apply p).2).headers.toList.map HeaderInstance.name) = _
    rw [hnames, hname, List.filterMap_cons]
    cases s.headerName? <;> simp

theorem checked_eq_ok_iff {p : Program} : p.checked = .ok p ↔ p.WellFormed := by
  rw [← Program.validate_eq_ok_iff]
  cases h : p.validate <;> simp [Program.checked, h, bind, Except.bind, pure, Except.pure]

theorem Along.imp {P Q : List Added → Program → Step → Prop} (h : ∀ handed p s, P handed p s →
    Q handed p s) {steps : List Step} {handed : List Added} {p : Program}
    (hP : Along P handed p steps) : Along Q handed p steps := by
  induction steps generalizing handed p with
  | nil => trivial
  | cons s rest ih => exact ⟨h _ _ _ hP.1, ih hP.2⟩

theorem Step.WidthFits.hasWidth {p : Program} {s : Step} (h : s.WidthFits p) : s.HasWidth p := by
  intro w hw
  cases s with
  | slice base hi lo =>
    cases hw
    refine ⟨hi - lo + 1, congrArg (Option.map Expr.ty) Array.back?_push, ?_⟩
    rw [UInt32.toNat_add, UInt32.toNat_sub_of_le _ _ (h.ordered _ _ _ rfl)]
    exact Nat.mod_eq_of_lt (h.fits _ rfl)
  | concat l r =>
    cases hw
    exact ⟨_, congrArg (Option.map Expr.ty) Array.back?_push,
      UInt32.toNat_ofNat_of_lt' (h.fits _ rfl)⟩
  | _ => cases hw

/-- In a well-scoped script that refers only to fields that are there, no step fails but for a name
that is not there, slices and concatenations get their widths, and the program that it builds is
accepted, unless it has more expressions than there are handles. -/
theorem runAll_checked_iff (steps : List Step) (h : WellScoped steps) (hfits : FieldsFit steps) :
    Along (fun _ p s => s.Tolerates p (s.apply p).1) [] .empty steps ∧
      Along (fun _ p s => s.HasWidth p) [] .empty steps ∧
      ((runAll steps .empty).checked = .ok (runAll steps .empty) ↔
        (runAll steps .empty).exprs.size ≤ UInt32.size) := by
  obtain ⟨htol, hsound, hnames⟩ := outcome_along (Sound.empty _) (List.forall_mem_nil _)
    h.handles hfits h.types
  refine ⟨htol, h.widths.imp fun _ _ _ hw => hw.hasWidth,
    checked_eq_ok_iff.trans (hsound.wellFormed_iff (Nat.le_refl _) ?_)⟩
  rw [hnames]
  exact h.headerNames

/-- A type that is declared after its first use, a field that is not there, a reference to a field
that is written out, and its lower byte twice. -/
def ethernetScript : List Step :=
  [.typeDecl "ethernet" (.header [⟨"kind", .bits 16 false⟩, ⟨"next", .enum ⟨1⟩⟩]),
    .enumType "protocol" ["ip"], .headerInstance "eth" ⟨0⟩, .field ⟨0⟩ "next", .field ⟨0⟩ "size",
    .headerRef ⟨0⟩, .expr (.enum ⟨1⟩) (.member ⟨⟨4⟩, "next", none, some ⟨⟨0⟩, 1⟩⟩),
    .slice ⟨5⟩ 7 0, .concat ⟨6⟩ ⟨6⟩]

theorem wellScoped_ethernetScript : WellScoped ethernetScript where
  handles := by
    refine ⟨⟨nofun, nofun⟩, ⟨nofun, nofun⟩, ⟨nofun, ?_⟩, ⟨?_, nofun⟩, ⟨?_, nofun⟩, ⟨?_, nofun⟩,
      ⟨?_, nofun⟩, ⟨?_, nofun⟩, ⟨?_, nofun⟩, trivial⟩
    · rintro _ ⟨⟩; decide
    · rintro _ ⟨⟩; decide
    · rintro _ ⟨⟩; decide
    · rintro _ ⟨⟩; decide
    · intro a ha
      cases ha with
      | part m => cases m; decide
      | memberHeader h => cases h
      | memberField h => cases h; decide
    · rintro _ ⟨⟩; decide
    · rintro _ ⟨⟩ <;> decide
  widths := by
    refine ⟨⟨nofun, nofun⟩, ⟨nofun, nofun⟩, ⟨nofun, nofun⟩, ⟨nofun, nofun⟩, ⟨nofun, nofun⟩,
      ⟨nofun, nofun⟩, ⟨nofun, nofun⟩, ⟨?_, ?_⟩, ⟨nofun, ?_⟩, trivial⟩
    · rintro _ _ _ ⟨⟩; decide
    · rintro _ ⟨⟩; decide
    · rintro _ ⟨⟩; decide
  types := by
    have henum : (runAll ethernetScript .empty).InRange (.enum ⟨1⟩) := by rintro _ ⟨⟩; decide
    refine List.forall_mem_cons.2 ⟨?_, List.forall_mem_cons.2 ⟨nofun, List.forall_mem_cons.2 ⟨nofun,
      List.forall_mem_cons.2 ⟨nofun, List.forall_mem_cons.2 ⟨nofun, List.forall_mem_cons.2 ⟨nofun,
      List.forall_mem_cons.2 ⟨?_, List.forall_mem_cons.2 ⟨nofun,
      List.forall_mem_singleton.2 nofun⟩⟩⟩⟩⟩⟩⟩⟩
    · intro ty hty
      cases hty with
      | typeBody m =>
        cases m with
        | headerField hf =>
          simp only [List.mem_cons, List.not_mem_nil, or_false] at hf
          rcases hf with rfl | rfl
          · exact nofun
          · exact henum
    · intro ty hty
      cases hty with
      | ofExpr => exact henum
      | inNode m => cases m
  headerNames := by decide

theorem ethernetScript_builds : (WellScoped ethernetScript ∧ FieldsFit ethernetScript) ∧
    (runAll ethernetScript .empty).checked = .ok (runAll ethernetScript .empty) := by
  have hfits : FieldsFit ethernetScript := by
    refine ⟨nofun, nofun, nofun, nofun, nofun, nofun, ?_, nofun, nofun, trivial⟩
    rintro _ _ _ ⟨⟩ ⟨⟩
    exact ⟨_, _, _, rfl, rfl, rfl⟩
  refine ⟨⟨wellScoped_ethernetScript, hfits⟩, ?_⟩
  exact (runAll_checked_iff _ wellScoped_ethernetScript hfits).2.2.2 (by decide)

/-- A reference to the eighth field of a header that has one. -/
def strayScript : List Step :=
  [.typeDecl "t" (.header [⟨"f", .bits 8 false⟩]), .headerInstance "h" ⟨0⟩, .namedPath "hdr" .void,
    .expr (.bits 8 false) (.member ⟨⟨0⟩, "f", none, some ⟨⟨0⟩, 7⟩⟩)]

/-- Handles that were all handed out do not make a reference to a field good. -/
theorem strayScript_refused : WellScoped strayScript ∧
    (runAll strayScript .empty).exprs.size ≤ UInt32.size ∧
    (runAll strayScript .empty).checked = .error (.danglingHandle "field #7 of t") := by
  refine ⟨⟨⟨⟨nofun, nofun⟩, ⟨nofun, ?_⟩, ⟨nofun, nofun⟩, ⟨?_, nofun⟩, trivial⟩,
    ⟨⟨nofun, nofun⟩, ⟨nofun, nofun⟩, ⟨nofun, nofun⟩, ⟨nofun, nofun⟩, trivial⟩, ?_, by decide⟩,
    by decide, rfl⟩
  · rintro _ ⟨⟩; decide
  · intro a ha
    cases ha with
    | part m => cases m; decide
    | memberHeader h => cases h
    | memberField h => cases h; decide
  · refine List.forall_mem_cons.2 ⟨?_, List.forall_mem_cons.2 ⟨nofun, List.forall_mem_cons.2 ⟨?_,
      List.forall_mem_singleton.2 ?_⟩⟩⟩
    · intro ty hty
      cases hty with
      | typeBody m =>
        cases m with
        | headerField hf => cases List.mem_singleton.1 hf; exact nofun
    · intro ty hty
      cases hty; exact nofun
    · intro ty hty
      cases hty with
      | ofExpr => exact nofun
      | inNode m => cases m

end PacketC.Build
