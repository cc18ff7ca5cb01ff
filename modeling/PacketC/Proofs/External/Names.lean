import PacketC.Proofs.External.Outcome

/-! Names that are put together from the texts of types. The function for a method is named after
the types that tell its versions apart, and an instance after its type. Such a name is an identifier
if and only if the texts in it are words, and the texts of many types are not: wide bit strings are
pointers, and structures and enumerations take two words. -/

namespace PacketC

open Code Lower

/-- A name of the target. -/
structure Code.IsIdentifier (x : String) : Prop extends IsStem x where
  notKeyword : x ∉ keywords

instance (x : String) : Decidable (IsStem x) :=
  decidable_of_iff (IsWord x ∧ starts Char.isDigit x = false)
    ⟨fun h => ⟨h.1, h.2⟩, fun h => ⟨h.toIsWord, h.start⟩⟩

instance (x : String) : Decidable (IsIdentifier x) :=
  decidable_of_iff (IsStem x ∧ x ∉ keywords) ⟨fun h => ⟨h.1, h.2⟩, fun h => ⟨h.toIsStem, h.2⟩⟩

/-- The names of types and of their methods are words that do not begin with a digit. -/
structure Program.NamesTypes (p : Program) : Prop where
  types : ∀ t ∈ p.typeDecls, IsStem t.name
  methods : ∀ t ∈ p.typeDecls, ∀ m ∈ t.methods, IsStem m.name

/-- The text of the type is a word. -/
def Ty.isNameable (s : TypeScope) : Ty → Bool
  | .void | .bool => true
  | .bits width _ => width.toNat ≤ 32
  | .name id =>
    match s.program.typeDecl id with
    | .ok t => t.cName?.isNone
    | .error _ => false
  | .external id => (s.program.typeDecl id).toOption.isSome
  | .specialized base args =>
    match s.program.typeDecl base, args with
    | .ok t, arg :: _ =>
      s.config.isArgTyped t.name && (s.program.typeName? arg).isSome || isNameable s arg
    | _, _ => false
  | _ => false

/-! ### Words -/

namespace Code

/-- All characters are those of words. -/
def isWordText (x : String) : Bool := x.toList.all isWordChar

@[simp]
theorem isWordText_append (a b : String) :
    isWordText (a ++ b) = (isWordText a && isWordText b) := by
  rw [isWordText, String.toList_append, List.all_append]
  rfl

theorem isWordText_join (texts : List String) :
    isWordText (String.join (texts.map fun text => "_" ++ text)) = texts.all isWordText := by
  induction texts with
  | nil => rfl
  | cons text texts ih =>
    rw [List.map_cons, String.join_cons, isWordText_append, isWordText_append, ih, List.all_cons]
    rfl

theorem not_mem_keywords_of_extern (x : String) : "extern_" ++ x ∉ keywords := by
  have hfirst : ∀ w ∈ keywords, ¬"extern_".toList <+: w.toList := by decide
  intro hmem
  exact hfirst _ hmem ⟨x.toList, by rw [String.toList_append]⟩

theorem not_mem_keywords_of_ending {ending : String}
    (h : ∀ w ∈ keywords, ¬ending.toList <:+ w.toList) (x : String) : x ++ ending ∉ keywords :=
  fun hmem => h _ hmem ⟨x.toList, by rw [String.toList_append]⟩

theorem isIdentifier_extern_iff (x : String) :
    IsIdentifier ("extern_" ++ x) ↔ isWordText x = true := by
  constructor
  · intro h
    have hchars : isWordText ("extern_" ++ x) = true := h.chars
    rw [isWordText_append, Bool.and_eq_true] at hchars
    exact hchars.2
  · intro h
    have hstem : IsStem "extern_" := ⟨by decide, by decide⟩
    exact ⟨hstem.append h, not_mem_keywords_of_extern x⟩

end Code

/-! ### Texts of types -/

namespace Ty

variable {s : TypeScope} {form : TypeForm}

theorem isNameable_specialized {base : TypeId} {t : TypeDecl}
    (ht : s.program.typeDecl base = .ok t) (arg : Ty) (rest : List Ty) :
    (specialized base (arg :: rest)).isNameable s =
      (s.config.isArgTyped t.name && (s.program.typeName? arg).isSome || arg.isNameable s) := by
  rw [isNameable.eq_def]
  dsimp only
  rw [ht]

theorem isWordText_unknownText (ty : Ty) (reason : String) :
    isWordText (unknownText ty reason).text = false := by
  have hfirst : isWordText "int /* generated in place of unknown type " = false := by decide
  show isWordText ("int /* generated in place of unknown type " ++ ty.shapeName ++ " */") = false
  rw [isWordText_append, isWordText_append, hfirst]
  rfl

theorem isWordText_joined (name : String) {text : String} (h : isWordText text = false) :
    isWordText (name ++ "_" ++ text) = false := by
  rw [isWordText_append, h, Bool.and_false]

theorem isWordText_enumText (ty : Ty) (id : TypeId) :
    isWordText (enumText s ty id).text = false := by
  unfold enumText
  split
  · exact isWordText_unknownText ..
  · split
    · exact (isWordText_append ..).trans rfl
    · exact isWordText_unknownText ..

theorem isStem_bitsText {width : Nat} (h : width ≤ 32) (signed : Bool) :
    IsStem (bitsText form width signed) := by
  rcases bits?_cases width with ⟨-, size, -, hsize, -⟩ | ⟨hwide, -⟩
  · have hstem : IsStem (if signed then "int" else "uint") := by
      cases signed <;> exact ⟨by decide, by decide⟩
    unfold bitsText
    rw [hsize]
    exact (hstem.append (all_toString (by decide) size)).append (by decide)
  · omega

theorem isWordText_bitsText (harray : form.useArray = false) {width : Nat} (h : 32 < width)
    (signed : Bool) : isWordText (bitsText form width signed) = false := by
  rcases bits?_cases width with ⟨hnarrow, -⟩ | ⟨-, hnone⟩
  · omega
  · have hpointer : isWordText "8_t*" = false := by decide
    unfold bitsText
    rw [hnone, harray]
    show isWordText ((if signed then "int" else "uint") ++ "8_t*") = false
    rw [isWordText_append, hpointer, Bool.and_false]

/-- A name stands for itself where no alias does. -/
theorem nameText_of_ok (halias : form.resolveNames = true → s.aliases = .empty) {id : TypeId}
    {t : TypeDecl} (ht : s.program.typeDecl id = .ok t) (hc : t.cName? = none) (ty : Ty) :
    nameText s form ty id = .plain t.name := by
  unfold nameText
  rw [ht]
  dsimp only
  rw [hc]
  dsimp only
  split
  · rename_i h
    rw [halias h]
    rfl
  · rfl

section Render

variable (hnames : s.program.NamesTypes) (harray : form.useArray = false)
  (halias : form.resolveNames = true → s.aliases = .empty)

include hnames

theorem isStem_typeDecl {id : TypeId} {t : TypeDecl} (ht : s.program.typeDecl id = .ok t) :
    IsStem t.name :=
  hnames.types t (Program.mem_of_lookup ht)

include halias

theorem isStem_render : ∀ ty : Ty, ty.isNameable s = true → IsStem (ty.render s form).text
  | .void, _ => (⟨by decide, by decide⟩ : IsStem "void")
  | .bool, _ => (⟨by decide, by decide⟩ : IsStem "bool")
  | .bits width signed, h => isStem_bitsText (by simpa [isNameable] using h) signed
  | .name id, h => by
    unfold isNameable at h
    split at h
    · rename_i t ht
      rw [render, nameText_of_ok halias ht (Option.isNone_iff_eq_none.1 h)]
      exact isStem_typeDecl hnames ht
    · cases h
  | .external id, h => by
    unfold isNameable at h
    rw [render]
    split
    · rename_i ht
      rw [ht] at h
      cases h
    · rename_i t ht
      exact (isStem_typeDecl hnames ht).append (by decide)
  | .specialized base args, h => by
    unfold isNameable at h
    split at h
    · rename_i t arg rest ht
      rw [render.eq_def]
      dsimp only
      rw [ht]
      dsimp only
      have hbase := (isStem_typeDecl hnames ht).append (x := "_") (by decide)
      split
      · rename_i hargTyped
        split
        · rename_i bare hbare
          obtain ⟨d, hd, rfl⟩ := exists_of_typeName? hbare
          exact hnames.types d hd
        · rename_i hbare
          rw [hargTyped, hbare] at h
          exact isStem_render arg h
      · rename_i hargTyped
        rw [Bool.not_eq_true] at hargTyped
        rw [hargTyped, Bool.false_and, Bool.false_or] at h
        have harg := isStem_render arg h
        split
        · rename_i hnil
          cases hnil
        · rename_i heq
          cases heq
          exact hbase.append harg.chars
        · rename_i heq
          cases heq
          exact hbase.append harg.chars
    · cases h

omit hnames halias

include harray

/-- A type that is not nameable brings a blank or an asterisk into the text. -/
theorem isWordText_render :
    ∀ ty : Ty, ty.isNameable s = false → isWordText (ty.render s form).text = false
  | .bits width signed, h => isWordText_bitsText harray (by simpa [isNameable] using h) signed
  | .varbits width, _ => by
    have hfirst : isWordText "uint8_t [" = false := by decide
    show isWordText ("uint8_t [" ++ toString (byteCount width.toNat) ++
      "] /* preliminary type for varbits */") = false
    rw [isWordText_append, isWordText_append, hfirst]
    rfl
  | .enum id, _ => isWordText_enumText ..
  | .error id, _ => isWordText_enumText ..
  | .name id, h => by
    rw [render, nameText]
    split
    · exact isWordText_unknownText ..
    · rename_i t ht
      split
      · exact (isWordText_append ..).trans rfl
      · rename_i hc
        simp [isNameable, ht, hc] at h
  | .external id, h => by
    rw [render]
    split
    · exact isWordText_unknownText ..
    · rename_i t ht
      simp [isNameable, ht, Except.toOption] at h
  | .struct id, _ => by
    rw [render]
    split
    · exact isWordText_unknownText ..
    · exact (isWordText_append ..).trans rfl
  | .specialized base args, h => by
    rw [render.eq_def]
    dsimp only
    split
    · exact isWordText_unknownText ..
    · rename_i t ht
      split
      · rename_i hargTyped
        split
        · exact isWordText_unknownText ..
        · rename_i arg rest
          rw [isNameable_specialized ht, hargTyped, Bool.true_and, Bool.or_eq_false_iff] at h
          split
          · rename_i hbare
            simp [hbare] at h
          · exact isWordText_render arg h.2
      · split
        · exact isWordText_unknownText (.specialized base []) "specialized type without arguments"
        · rename_i arg
          rw [isNameable_specialized ht, Bool.or_eq_false_iff] at h
          exact isWordText_joined t.name (isWordText_render arg h.2)
        · rename_i arg rest _
          rw [isNameable_specialized ht, Bool.or_eq_false_iff] at h
          exact isWordText_joined t.name (isWordText_render arg h.2)
  | .infInt, _ => isWordText_unknownText ..
  | .string, _ => isWordText_unknownText ..
  | .header _, _ => isWordText_unknownText ..
  | .var _, _ => isWordText_unknownText ..
  | .tuple _, _ => isWordText_unknownText ..
  | .void, h => by cases h
  | .bool, h => by cases h

end Render

end Ty

namespace Lower

variable {env : Env}

/-! ### Functions -/

theorem isIdentifier_function_iff (hnames : env.program.NamesTypes) (halias : env.aliases = .empty)
    {t : ExternalTarget} (hdecl : t.decl ∈ env.program.typeDecls)
    (hsignature : t.signature ∈ t.decl.methods) (typeArgs : List Ty) :
    IsIdentifier (t.function env typeArgs) ↔
      ∀ ty ∈ t.foldedTypes typeArgs, ty.isNameable env.toTypeScope = true := by
  have hmethod : isWordText (t.decl.name ++ "_" ++ t.signature.name) = true := by
    have htype := (hnames.types _ hdecl).append (x := "_") (by decide)
    exact (htype.append (hnames.methods _ hdecl _ hsignature).chars).chars
  have hfunction : t.function env typeArgs = "extern_" ++ (t.decl.name ++ "_" ++ t.signature.name ++
      String.join (((t.foldedTypes typeArgs).map env.typeText).map fun text => "_" ++ text)) := by
    unfold ExternalTarget.function
    rw [List.map_map]
    simp only [String.append_assoc]
    rfl
  rw [hfunction, isIdentifier_extern_iff, isWordText_append, hmethod, Bool.true_and,
    isWordText_join, List.all_map, List.all_eq_true]
  refine forall₂_congr fun ty _ => ⟨fun h => ?_, fun h => ?_⟩
  · by_contra hty
    rw [Bool.not_eq_true] at hty
    have hnot : isWordText (env.typeText ty) = false := Ty.isWordText_render rfl ty hty
    exact absurd h (by rw [Function.comp_apply, hnot]; exact Bool.false_ne_true)
  · exact (Ty.isStem_render hnames (fun _ => halias) ty h).chars

/-! ### Instances -/

/-- What the type of an instance is named after. -/
def Env.instanceBase (env : Env) : Ty → String
  | .external id => (env.program.typeDecl id).toOption.elim "" TypeDecl.name
  | ty => (ty.render env.toTypeScope TypeForm.parameter.unresolved).text

def Env.instanceType (env : Env) (ty : Ty) : String := env.instanceBase ty ++ "_t"

theorem instanceDecl_run (wf : env.program.WellFormed) {ty : Ty} (hty : env.program.HoldsTy ty)
    (name : String) (s : State) :
    let type := env.instanceType ty
    ∃ ds, instanceDecl ty name env s =
      (.ok (type ++ " " ++ name ++ ";\n" ++ type ++ "_init(&" ++ name ++ ");"),
        ⟨s.memory.note ds,
          s.emission.prepend ("extern void " ++ type ++ "_init(" ++ type ++ "*);")⟩) := by
  intro type
  unfold instanceDecl
  dsimp only
  split
  · rename_i id
    obtain ⟨t, ht⟩ := wf.exists_typeDecl hty (.external id)
    have hbase : Notes env ((·.name) <$> look (·.typeDecl id))
        (env.instanceBase (.external id)) := by
      rw [map_eq_pure_bind, Env.instanceBase, ht]
      exact (Notes.of_pure (look_of_ok ht)).bind (.pure _)
    obtain ⟨ds, hds⟩ := hbase s
    exact ⟨ds, by rw [run_bind, hds]; rfl⟩
  · rename_i hne
    have hbase : Notes env (typeTextIn TypeForm.parameter.unresolved ty) (env.instanceBase ty) := by
      unfold Env.instanceBase
      split
      · rename_i id
        exact absurd rfl (hne id)
      · exact typeTextIn_notes _ ty
    obtain ⟨ds, hds⟩ := hbase s
    exact ⟨ds, by rw [run_bind, hds]; rfl⟩

section Base

variable {ty : Ty}

theorem isStem_instanceBase (hnames : env.program.NamesTypes)
    (h : ty.isNameable env.toTypeScope = true) : IsStem (env.instanceBase ty) := by
  unfold Env.instanceBase
  split
  · rename_i id
    obtain ⟨t, ht⟩ := Option.isSome_iff_exists.1 h
    rw [ht]
    have ht : env.program.typeDecl id = .ok t := by
      cases hid : env.program.typeDecl id <;> rw [hid] at ht <;> cases ht
      rfl
    exact Ty.isStem_typeDecl hnames ht
  · exact Ty.isStem_render hnames (fun hresolve => by cases hresolve) ty h

theorem isWordText_instanceBase (wf : env.program.WellFormed) (hty : env.program.HoldsTy ty)
    (h : ty.isNameable env.toTypeScope = false) : isWordText (env.instanceBase ty) = false := by
  unfold Env.instanceBase
  split
  · rename_i id
    obtain ⟨t, ht⟩ := wf.exists_typeDecl hty (.external id)
    simp [Ty.isNameable, ht, Except.toOption] at h
  · exact Ty.isWordText_render rfl ty h

theorem isIdentifier_instance_iff (wf : env.program.WellFormed) (hnames : env.program.NamesTypes)
    (hty : env.program.HoldsTy ty) {ending : String} (hending : isWordText ending = true)
    (hkeywords : ∀ w ∈ keywords, ¬ending.toList <:+ w.toList) :
    IsIdentifier (env.instanceBase ty ++ ending) ↔ ty.isNameable env.toTypeScope = true := by
  constructor
  · intro h
    by_contra hnot
    rw [Bool.not_eq_true] at hnot
    have hchars : isWordText (env.instanceBase ty ++ ending) = true := h.chars
    rw [isWordText_append, isWordText_instanceBase wf hty hnot] at hchars
    cases hchars
  · intro h
    exact ⟨(isStem_instanceBase hnames h).append hending, not_mem_keywords_of_ending hkeywords _⟩

end Base

/-! ### Names in the target -/

/-- The function that the call of a method becomes has an identifier for a name if and only if the
texts of the types that are part of it are words. The type of an instance and the function that sets
the instance up have identifiers for names if and only if the text of the instance's type is a
word. -/
theorem identifiers_iff_nameable (p : Program) (hv : p.validate = .ok ()) (hnames : p.NamesTypes)
    (env : Env) (henv : env.program = p) (halias : env.aliases = .empty) :
    (∀ id e call receiver t mode s u text, p.expr id = .ok e → e.node = .call call →
      p.CallsExternal call receiver t → expr id mode env s = (.ok text, u) →
      ∃ args, text = invocation (t.function env call.typeArgs) args ∧
        t.prototype env call receiver ∈ u.emission.current.pre ∧
        (IsIdentifier (t.function env call.typeArgs) ↔
          ∀ ty ∈ t.foldedTypes call.typeArgs, ty.isNameable env.toTypeScope = true)) ∧
    (∀ id d ty args rename s, p.decl id = .ok d → d.body = .inst ty args →
      let type := env.instanceType ty
      let name := rename.getD d.name
      ∃ u, declaration expr id rename env s =
          (.ok (type ++ " " ++ name ++ ";\n" ++ type ++ "_init(&" ++ name ++ ");"), u) ∧
        "extern void " ++ type ++ "_init(" ++ type ++ "*);" ∈ u.emission.current.pre ∧
        (IsIdentifier type ↔ ty.isNameable env.toTypeScope = true) ∧
        (IsIdentifier (type ++ "_init") ↔ ty.isNameable env.toTypeScope = true)) := by
  have wf := Program.WellFormed.of_validate hv
  subst henv
  constructor
  · intro id e call receiver t mode s u text he hnode hcall hrun
    rw [expr_of_callsExternal wf he hnode hcall] at hrun
    obtain ⟨s₁, ds, s₂, es, texts, -, -, rfl, htext⟩ := exists_of_callExternal hcall.target
      (fun a ha => wf.exists_part he (hnode ▸ .arg ha)) hrun
    have hfound := found_of_externalTarget hcall.target
    exact ⟨_, htext, mem_prepend _ _,
      isIdentifier_function_iff hnames halias hfound.decl hfound.signature _⟩
  · intro id d ty args rename s hd hbody type name
    have hmem := Program.mem_of_lookup hd
    have hty : env.program.HoldsTy ty := .decl hmem (hbody ▸ .inst ..)
    obtain ⟨ds, hrun⟩ := instanceDecl_run wf hty name s
    have hdeclared : declaration expr id rename env = instanceDecl ty name env := by
      unfold declaration
      rw [bind_of_pure (look_of_ok hd), hbody]
    refine ⟨_, (congrFun hdeclared s).trans hrun, mem_prepend _ s.emission, ?_, ?_⟩
    · exact isIdentifier_instance_iff wf hnames hty (by decide) (by decide)
    · have hinit : type ++ "_init" = env.instanceBase ty ++ "_t_init" := by
        show env.instanceBase ty ++ "_t" ++ "_init" = _
        rw [String.append_assoc]
        rfl
      rw [hinit]
      exact isIdentifier_instance_iff wf hnames hty (by decide) (by decide)

/-- Meters of 32 bits, of 48 bits and of a structure, each read into a variable of its type. -/
def threeMeters : Program where
  exprs := #[.declared 0 (.specialized ⟨1⟩ [.bits 32 false]) "a" 0,
    .declared 1 (.specialized ⟨1⟩ [.bits 48 false]) "b" 1,
    .declared 2 (.specialized ⟨1⟩ [.struct ⟨0⟩]) "c" 2, .declared 3 (.bits 32 false) "x" 3,
    .declared 4 (.bits 48 false) "y" 4, .declared 5 (.struct ⟨0⟩) "z" 5, .method 6 "read" 0,
    .called 7 6 [⟨3⟩], .method 8 "read" 1, .called 9 8 [⟨4⟩], .method 10 "read" 2,
    .called 11 10 [⟨5⟩]]
  decls := #[⟨"a", .inst (.specialized ⟨1⟩ [.bits 32 false]) []⟩,
    ⟨"b", .inst (.specialized ⟨1⟩ [.bits 48 false]) []⟩,
    ⟨"c", .inst (.specialized ⟨1⟩ [.struct ⟨0⟩]) []⟩, ⟨"x", .var (.bits 32 false) none⟩,
    ⟨"y", .var (.bits 48 false) none⟩, ⟨"z", .var (.struct ⟨0⟩) none⟩]
  typeDecls := #[⟨"pair_t", .struct [⟨"f", .bits 8 false⟩, ⟨"g", .bits 8 false⟩] false⟩,
    ⟨"direct_meter", .external ["T"] [⟨"read", [], [⟨"result", .out, .var "T"⟩], .void⟩]⟩]

theorem threeMeters_namesTypes : threeMeters.NamesTypes where
  types := by decide
  methods := by decide

/-- The meter of 32 bits is read by a function with an identifier for a name, and so are its type
and the function that sets it up. -/
theorem threeMeters_named :
    let env : Env := ⟨⟨threeMeters, .standard, .empty⟩, none⟩
    let s : State := ⟨.empty, .empty⟩
    threeMeters.validate = .ok () ∧ threeMeters.NamesTypes ∧
    (∃ function args u, expr ⟨7⟩ .value env s = (.ok (invocation function args), u) ∧
      IsIdentifier function) ∧
    ∃ type u, declaration expr ⟨0⟩ none env s =
        (.ok (type ++ " " ++ "a" ++ ";\n" ++ type ++ "_init(&" ++ "a" ++ ");"), u) ∧
      IsIdentifier type ∧ IsIdentifier (type ++ "_init") := by
  intro env s
  obtain ⟨hcalls, hinstances⟩ :=
    identifiers_iff_nameable threeMeters rfl threeMeters_namesTypes env rfl rfl
  have hcall : threeMeters.CallsExternal ⟨⟨6⟩, [], [⟨3⟩]⟩ _ _ :=
    .of rfl rfl rfl rfl (by decide) rfl
  have hread := run_of_toOption (x := expr ⟨7⟩ .value env s)
    (a := "extern_direct_meter_read_uint32_t(&(global_smem.a))") (by decide +kernel)
  obtain ⟨args, htext, -, hfunction⟩ := hcalls ⟨7⟩ _ _ _ _ .value s _ _ rfl rfl hcall hread
  obtain ⟨u, hdeclared, -, htype, hinit⟩ := hinstances ⟨0⟩ _ _ _ none s rfl rfl
  refine ⟨rfl, threeMeters_namesTypes, ⟨_, args, _, htext ▸ hread, hfunction.2 (by decide)⟩, _, u,
    hdeclared, htype.2 (by decide), hinit.2 (by decide)⟩

/-- A meter of 48 bits brings an asterisk into the names, and one of a structure a blank. -/
theorem threeMeters_unnamed :
    let env : Env := ⟨⟨threeMeters, .standard, .empty⟩, none⟩
    let s : State := ⟨.empty, .empty⟩
    threeMeters.validate = .ok () ∧ threeMeters.NamesTypes ∧
    (expr ⟨9⟩ .value env s).1.toOption =
      some (invocation "extern_direct_meter_read_uint8_t*" ["&(global_smem.b)"]) ∧
    (expr ⟨9⟩ .value env s).2.memory.diagnostics = [] ∧
    ¬IsIdentifier "extern_direct_meter_read_uint8_t*" ∧
    (declaration expr ⟨2⟩ none env s).1.toOption =
      some "direct_meter_struct pair_s_t c;\ndirect_meter_struct pair_s_t_init(&c);" ∧
    (declaration expr ⟨2⟩ none env s).2.memory.diagnostics = [] ∧
    ¬IsIdentifier "direct_meter_struct pair_s_t" ∧
    ¬IsIdentifier "direct_meter_struct pair_s_t_init" := by
  refine ⟨rfl, threeMeters_namesTypes, ?_, ?_, ?_, ?_, ?_, ?_, ?_⟩ <;> decide +kernel

end Lower

end PacketC
