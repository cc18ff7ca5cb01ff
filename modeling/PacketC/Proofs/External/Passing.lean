import PacketC.Proofs.External.Outcome
import PacketC.Proofs.Lower.Confined
import PacketC.Proofs.Lower.Reports

/-! How an argument is passed, and the code that it takes around the statement. An expression
without calls in it puts declarations in front of the statement, the same ones whatever stands
there. A field that a method may change is passed through a variable, which is declared in front of
the statement, filled there if the method reads it too, and stored in the field behind the
statement. The payload of a receiver is held by a variable of its own, and copied from there. -/

namespace PacketC

/-! ### Code around the statement -/

namespace Emission

variable {code : String}

/-- The pieces and one more, unless it is among them. -/
def addOnce (pieces : List String) (code : String) : List String :=
  if pieces.contains code then pieces else pieces ++ [code]

/-- Code is put in front of the body, each piece once, and behind it. -/
def add (pre post : List String) (e : Emission) : Emission :=
  ⟨⟨pre.foldl addOnce e.current.pre, e.current.post ++ post⟩, e.outer⟩

theorem add_nil (e : Emission) : e.add [] [] = e := by
  rw [add, List.append_nil]
  rfl

theorem add_add (pre post pre' post' : List String) (e : Emission) :
    (e.add pre post).add pre' post' = e.add (pre ++ pre') (post ++ post') := by
  rw [add, add, add, List.foldl_append, ← List.append_assoc]

theorem prepend_eq_add (code : String) (e : Emission) : e.prepend code = e.add [code] [] := by
  rw [prepend, add, List.append_nil, List.foldl_cons, List.foldl_nil, addOnce]
  split <;> rfl

theorem mem_addOnce {piece : String} {pieces : List String} :
    code ∈ addOnce pieces piece ↔ code ∈ pieces ∨ code = piece := by
  unfold addOnce
  split
  · rename_i hmem
    refine ⟨.inl, fun h => h.elim id ?_⟩
    rintro rfl
    exact List.contains_iff_mem.1 hmem
  · rw [List.mem_append, List.mem_singleton]

theorem mem_foldl_addOnce {pre pieces : List String} :
    code ∈ pre.foldl addOnce pieces ↔ code ∈ pieces ∨ code ∈ pre := by
  induction pre generalizing pieces with
  | nil => simp
  | cons piece pre ih => rw [List.foldl_cons, ih, mem_addOnce, List.mem_cons, or_assoc]

theorem prefix_foldl_addOnce (pre pieces : List String) : pieces <+: pre.foldl addOnce pieces := by
  induction pre generalizing pieces with
  | nil => exact List.prefix_refl _
  | cons piece pre ih =>
    refine List.IsPrefix.trans ?_ (ih (addOnce pieces piece))
    unfold addOnce
    split
    · exact List.prefix_refl _
    · exact List.prefix_append _ _

theorem mem_add {pre : List String} (h : code ∈ pre) (post : List String) (e : Emission) :
    code ∈ (e.add pre post).current.pre := mem_foldl_addOnce.2 (.inr h)

end Emission

namespace Lower

variable {α : Type} {env : Env} {s u : State}

/-- From any state the action yields `a`, and adds the code around the statement. -/
def Adds (env : Env) (x : LowerM α) (a : α) (pre post : List String) : Prop :=
  ∀ s, x env s = (.ok a, { s with emission := s.emission.add pre post })

namespace Adds

variable {β : Type} {x : LowerM α} {f : α → LowerM β} {a : α} {b : β}
  {pre post pre' post' : List String}

theorem of_pure (h : x env = (Pure.pure a : LowerM α) env) : Adds env x a [] [] := by
  intro s
  rw [h, Emission.add_nil, run_pure]

theorem hoist (code : String) : Adds env (Lower.hoist code) () [code] [] := by
  intro s
  rw [← Emission.prepend_eq_add]
  rfl

theorem defer (code : String) : Adds env (Lower.defer code) () [] [code] := fun _ => rfl

theorem bind (hx : Adds env x a pre post) (hf : Adds env (f a) b pre' post') :
    Adds env (x >>= f) b (pre ++ pre') (post ++ post') := by
  intro s
  rw [run_bind, hx]
  dsimp only
  rw [hf, Emission.add_add]

theorem after_pure (h : x env = (Pure.pure a : LowerM α) env)
    (hf : Adds env (f a) b pre post) : Adds env (x >>= f) b pre post := by
  intro s
  rw [bind_of_pure h]
  exact hf s

theorem forM {f : α → LowerM Unit} {code : α → List String} {l : List α}
    (h : ∀ a ∈ l, Adds env (f a) () (code a) []) : Adds env (l.forM f) () (l.flatMap code) [] := by
  induction l with
  | nil => exact .of_pure rfl
  | cons a l ih =>
    rw [List.flatMap_cons]
    exact (h a (.head l)).bind (ih fun b hb => h b (.tail a hb))

end Adds

/-! ### Expressions without calls -/

/-- Whatever stands around the statement, the action ends in the same way and puts the same
declarations in front of it. -/
def Hoists (env : Env) (x : LowerM α) : Prop :=
  ∀ m, ∃ r m' pre, (∀ code ∈ pre, isDeclaring code = true) ∧
    ∀ e, x env ⟨m, e⟩ = (r, ⟨m', e.add pre []⟩)

theorem Hoists.still {x : LowerM α} (h : ∀ m, ∃ r m', ∀ e, x env ⟨m, e⟩ = (r, ⟨m', e⟩)) :
    Hoists env x := by
  intro m
  obtain ⟨r, m', hrun⟩ := h m
  exact ⟨r, m', [], nofun, fun e => by rw [hrun, Emission.add_nil]⟩

theorem Hoists.bind {β : Type} {x : LowerM α} {f : α → LowerM β} (hx : Hoists env x)
    (hf : ∀ a, Returns env x a → Hoists env (f a)) : Hoists env (x >>= f) := by
  intro m
  obtain ⟨r, m', pre, hpre, hrun⟩ := hx m
  cases r with
  | error e => exact ⟨.error e, m', pre, hpre, fun _ => by rw [run_bind, hrun]⟩
  | ok a =>
    obtain ⟨r, m'', pre', hpre', hrun'⟩ := hf a ⟨_, _, hrun .empty⟩ m'
    refine ⟨r, m'', pre ++ pre', List.forall_mem_append.2 ⟨hpre, hpre'⟩, fun e => ?_⟩
    rw [run_bind, hrun]
    exact (hrun' _).trans (by rw [Emission.add_add, List.append_nil])

theorem InStep.hoists {L : Licence} {r₁ r₂ : Recur} {x y : LowerM α}
    (h : InStep env env L r₁ r₂ x y) (hframes : ¬L.frames) (hdefers : ¬L.defers)
    (hr : ∀ id, L.enters id → ∀ mode, Hoists env (r₁ id mode)) : Hoists env x := by
  induction h with
  | bind _ _ ihx ihf => exact ihx.bind ihf
  | @firstTime id =>
    refine .still fun m => ?_
    by_cases h : m.isGenerated id = true
    · exact ⟨_, m, fun e => by rw [run_firstTime, if_pos h]⟩
    · exact ⟨_, { m with generated := id :: m.generated }, fun e => by rw [run_firstTime, if_neg h]⟩
  | @hoist code _ hdecl =>
    refine fun m => ⟨_, m, [code], ?_, fun e => by rw [← Emission.prepend_eq_add]; rfl⟩
    simpa using hdecl.resolve_left hdefers
  | defer _ h => exact absurd h hdefers
  | framed h => exact absurd h hframes
  | enter h mode => exact hr _ h mode
  | inEnv hx _ _ ih =>
    intro m
    obtain ⟨r, m', pre, hpre, hrun⟩ := ih m
    exact ⟨r, m', pre, hpre, fun e => by rw [hx]; exact hrun e⟩
  | @freshName hint =>
    exact .still fun m => ⟨.ok (m.names.fresh hint).1, ⟨(m.names.fresh hint).2, _, _⟩, fun _ => rfl⟩
  | @nameOf hint _ id =>
    exact .still fun m =>
      ⟨.ok (m.names.named hint id.text).1, ⟨(m.names.named hint id.text).2, _, _⟩, fun _ => rfl⟩
  | _ => exact .still fun m => ⟨_, _, fun _ => rfl⟩

theorem expr_hoists (wf : env.program.WellFormed) {id : ExprId} {e : Expr}
    (he : env.At id e) (hcall : ¬env.program.ReachesCall id) (mode : Mode) :
    Hoists env (expr id mode) := by
  intro m
  rw [expr_eq_nodeText wf he]
  refine (nodeText_quiet wf he hcall expr expr mode).hoists (fun h => h) (fun h => h)
    (fun j hj mode => ?_) m
  obtain ⟨x, hx⟩ := exists_of_below wf he hj
  exact expr_hoists wf hx (not_reachesCall_of_reaches hj.reaches hcall) mode
termination_by id.index
decreasing_by exact wf.below_lt hj

/-! ### One argument -/

/-- How an argument is passed: its text, and the code that it takes around the statement. -/
structure Passing where
  text : String
  pre : List String
  post : List String

/-- A field is passed through the variable of the given name. A scalar holds the field and is passed
by its address, and a buffer above 32 bits is passed as it is. It is filled only if the method reads
it too, and stored in the field in either case. -/
inductive Marshals (l : PacketField) (direction : Direction) (name : String) : Passing → Prop
  | scalar {unit : Nat} (h : l.width ≤ 32) (hbits : (Container.ofWidth l.width).bits? = some unit)
      (hunit : unit ∈ [8, 16, 32]) (hfits : l.width ≤ unit) :
      Marshals l direction name ⟨"&" ++ name,
        s!"uint{unit}_t {name};" ::
          if direction = .inOut then [s!"{name} = {packetValue l};"] else [],
        [setField l name]⟩
  | buffer (h : 32 < l.width) (hfits : l.width + 7 < UInt32.size → l.width ≤ 8 * l.bytes) :
      Marshals l direction name ⟨name,
        s!"uint8_t {name}[{l.bytes}];" ::
          if direction = .inOut then [extractPacket l l.fieldId name] else [],
        [modifyField l name (toString l.bytes)]⟩

/-- What stands before an argument that is not written back. -/
def addressMark (param : Param) : String :=
  if param.direction ≠ .into ∧ !param.ty.isBits then "&" else ""

end Lower

open Lower

/-- The field of the packet that an expression is. -/
def Program.fieldOf? (p : Program) (id : ExprId) : Option PacketField := do
  let e ← (p.expr id).toOption
  let ref ← e.fieldRef?
  (p.packetField ref).toOption

/-- The field that an argument is, if the method may change it. -/
def Program.writtenField? (p : Program) (q : ExprId × Param) : Option PacketField :=
  if q.2.direction.writesBack then p.fieldOf? q.1 else none

/-- The arguments that are written back, each with its field. -/
def Program.writtenPairs (p : Program) (pairs : List (ExprId × Param)) :
    List ((ExprId × Param) × PacketField) :=
  pairs.filterMap fun q => (p.writtenField? q).map (q, ·)

/-- Stores the variable of the given name in the field. -/
def PacketField.writeBack (l : PacketField) (name : String) : String :=
  if l.width ≤ 32 then setField l name else modifyField l name (toString l.bytes)

namespace Lower

variable {l : PacketField} {p : Program} {names : NameSupply} {arg : ExprId} {param : Param}
  {pairs : List (ExprId × Param)}

/-- How an argument is passed, where `names` are the names that have been handed out. One that is
not written back is passed as its expression comes out, with what the expression takes. -/
structure PassedAs (env : Env) (names : NameSupply) (q : ExprId × Param) (a : Passing) : Prop where
  field : ∀ l, env.program.writtenField? q = some l → ∃ name,
    names.memo.lookup ("value", q.1.text) = some name ∧ Marshals l q.2.direction name a
  other : env.program.writtenField? q = none →
    a.post = [] ∧ (∀ code ∈ a.pre, isDeclaring code = true) ∧
    ∃ m m' value, a.text = addressMark q.2 ++ value ∧
      ∀ e, expr q.1 .expanded env ⟨m, e⟩ = (.ok value, ⟨m', e.add a.pre []⟩)

theorem Marshals.post_eq {direction : Direction} {name : String} {a : Passing}
    (h : Marshals l direction name a) : a.post = [l.writeBack name] := by
  unfold PacketField.writeBack
  cases h with
  | scalar h => rw [if_pos h]
  | buffer h => rw [if_neg (Nat.not_le.2 h)]

theorem PassedAs.mono {names' : NameSupply} {q : ExprId × Param} {a : Passing}
    (h : PassedAs env names q a) (hext : names.Extends names') : PassedAs env names' q a where
  field l hl := by
    obtain ⟨name, hname, hl⟩ := h.field l hl
    exact ⟨name, hext.kept _ _ hname, hl⟩
  other := h.other

theorem Marshals.passedAs {q : ExprId × Param} {name : String} {a : Passing}
    (h : Marshals l q.2.direction name a) (hfield : env.program.writtenField? q = some l)
    (hname : names.memo.lookup ("value", q.1.text) = some name) : PassedAs env names q a where
  field l' hl' := by
    obtain rfl : l = l' := Option.some.inj (hfield.symm.trans hl')
    exact ⟨name, hname, h⟩
  other hnone := by
    rw [hfield] at hnone
    cases hnone

variable {a : Expr}

theorem exists_of_plainArgument (wf : env.program.WellFormed) (ha : env.At arg a)
    (hcall : ¬env.program.ReachesCall arg) (hplain : env.program.writtenField? (arg, param) = none)
    {text : String} (h : plainArgument expr arg param env s = (.ok text, u)) :
    ∃ passing : Passing, passing.text = text ∧
      u.emission = s.emission.add passing.pre passing.post ∧
      PassedAs env u.memory.names (arg, param) passing := by
  obtain ⟨value, s₁, hvalue, h⟩ := exists_of_bind h
  cases h
  obtain ⟨r, m, pre, hpre, hrun⟩ := expr_hoists wf ha hcall .expanded s.memory
  cases hvalue.symm.trans (hrun s.emission)
  refine ⟨⟨addressMark param ++ value, pre, []⟩, rfl, rfl, fun l hl => ?_, fun _ => ?_⟩
  · rw [hplain] at hl
    cases hl
  · exact ⟨rfl, hpre, _, _, value, rfl, hrun⟩

theorem scalarArgument_adds {ref : FieldRef} (hl : env.program.packetField ref = .ok l)
    (hwidth : l.width ≤ 32) (name : String) (unit : Nat) (param : Param) :
    Adds env (scalarArgument ref l name unit param) ("&" ++ name)
      (s!"uint{unit}_t {name};" ::
        if param.direction = .inOut then [s!"{name} = {packetValue l};"] else [])
      [setField l name] := by
  have hvalue : fieldText ref .value env = (pure (packetValue l) : LowerM String) env := by
    unfold fieldText
    rw [bind_of_pure (look_of_ok hl), if_neg (by decide), if_neg (Nat.not_lt.2 hwidth)]
  have hback : Adds env (do defer (setField l name); return "&" ++ name) ("&" ++ name) []
      [setField l name] := (Adds.defer _).bind (.of_pure rfl)
  unfold scalarArgument
  by_cases hdirection : param.direction = .inOut
  · simp only [if_pos hdirection]
    exact (Adds.hoist _).bind ((Adds.of_pure hvalue).bind ((Adds.hoist _).bind hback))
  · simp only [if_neg hdirection]
    exact (Adds.hoist _).bind hback

theorem bufferArgument_adds (l : PacketField) (name : String) (param : Param) :
    Adds env (bufferArgument l name param) name
      (s!"uint8_t {name}[{l.bytes}];" ::
        if param.direction = .inOut then [extractPacket l l.fieldId name] else [])
      [modifyField l name (toString l.bytes)] := by
  have hback : Adds env (do defer (modifyField l name (toString l.bytes)); return name) name []
      [modifyField l name (toString l.bytes)] := (Adds.defer _).bind (.of_pure rfl)
  unfold bufferArgument
  by_cases hdirection : param.direction = .inOut
  · simp only [if_pos hdirection]
    exact (Adds.hoist _).bind ((Adds.hoist _).bind hback)
  · simp only [if_neg hdirection]
    exact (Adds.hoist _).bind hback

theorem fieldOf?_of_ok (ha : p.At arg a) :
    p.fieldOf? arg = a.fieldRef?.bind fun ref => (p.packetField ref).toOption := by
  rw [Program.fieldOf?, ha]
  rfl

/-- An argument puts nothing behind the statement but what stores the field that it is. -/
theorem exists_of_argument (wf : env.program.WellFormed) (ha : env.At arg a)
    (hcall : ¬env.program.ReachesCall arg) {text : String}
    (h : argument expr arg param env s = (.ok text, u)) :
    ∃ passing : Passing, passing.text = text ∧
      u.emission = s.emission.add passing.pre passing.post ∧
      PassedAs env u.memory.names (arg, param) passing := by
  have hwritten : env.program.writtenField? (arg, param) =
      (if param.direction.writesBack then a.fieldRef? else none).bind fun ref =>
        (env.program.packetField ref).toOption := by
    rw [Program.writtenField?, fieldOf?_of_ok ha]
    split <;> rfl
  have hres : ∀ ref, (if param.direction.writesBack then a.fieldRef? else none) = some ref →
      env.program.Resolves ref := by
    intro ref href
    split at href
    · exact wf.resolves ha href
    · cases href
  unfold argument at h
  rw [bind_of_pure (look_of_ok ha)] at h
  generalize (if param.direction.writesBack then a.fieldRef? else none) = ref? at h hwritten hres
  cases ref? with
  | none =>
    exact exists_of_plainArgument wf ha hcall hwritten h
  | some ref =>
    obtain ⟨l, hl⟩ := exists_packetField (hres ref rfl)
    rw [Option.bind_some, hl] at hwritten
    dsimp only at h
    rw [bind_of_pure (look_of_ok hl)] at h
    rw [run_bind, run_nameOf] at h
    dsimp only at h
    have hname := s.memory.names.lookup_named "value" arg.text
    rcases bits?_cases l.width with ⟨hwidth, unit, hunit, hbits, hfits⟩ | ⟨hwidth, hbits⟩
    · rw [hbits] at h
      dsimp only at h
      rw [scalarArgument_adds hl hwidth] at h
      cases h
      exact ⟨_, rfl, rfl, Marshals.passedAs (.scalar hwidth hbits hunit hfits) hwritten hname⟩
    · have hfits : l.width + 7 < UInt32.size → l.width ≤ 8 * l.bytes := by
        intro h
        rw [PacketField.bytes, byteCount, Nat.mod_eq_of_lt h]
        omega
      rw [hbits] at h
      dsimp only at h
      rw [bufferArgument_adds] at h
      cases h
      exact ⟨_, rfl, rfl, Marshals.passedAs (.buffer hwidth hfits) hwritten hname⟩

/-! ### All arguments -/

theorem arguments_inStep (env : Env) (pairs : List (ExprId × Param)) :
    InStep env env .any expr expr (pairs.mapM fun q => argument expr q.1 q.2)
      (pairs.mapM fun q => argument expr q.1 q.2) :=
  .mapM fun q _ => argument_inStep (Licence.any_suits _) trivial (Licence.any_allows env q.1) q.2

theorem arguments_remember {texts : List String}
    (h : (pairs.mapM fun q => argument expr q.1 q.2) env s = (.ok texts, u)) :
    s.memory.names.Extends u.memory.names := by
  have hgrows := (arguments_inStep env pairs).remembers s
  rw [h] at hgrows
  exact hgrows.names

/-- What is put around the statement is what the arguments put there, one after the other. -/
theorem exists_of_arguments (wf : env.program.WellFormed)
    (hpairs : ∀ q ∈ pairs, ∃ a, env.At q.1 a)
    (hcall : ∀ q ∈ pairs, ¬env.program.ReachesCall q.1) {texts : List String}
    (h : (pairs.mapM fun q => argument expr q.1 q.2) env s = (.ok texts, u)) :
    ∃ passings : List Passing,
      List.Forall₂ (PassedAs env u.memory.names) pairs passings ∧
      texts = passings.map Passing.text ∧
      u.emission = s.emission.add (passings.flatMap Passing.pre)
        (passings.flatMap Passing.post) := by
  induction pairs generalizing s texts with
  | nil =>
    rw [List.mapM_nil] at h
    cases h
    exact ⟨[], .nil, rfl, (Emission.add_nil _).symm⟩
  | cons q pairs ih =>
    rw [List.mapM_cons] at h
    obtain ⟨text, s₁, htext, h⟩ := exists_of_bind h
    obtain ⟨rest, s₂, hrest, h⟩ := exists_of_bind h
    cases h
    obtain ⟨a, ha⟩ := hpairs q (.head pairs)
    obtain ⟨passing, rfl, hemission, hpassing⟩ :=
      exists_of_argument wf ha (hcall q (.head pairs)) htext
    obtain ⟨passings, hpassings, rfl, hemissions⟩ :=
      ih (fun q hq => hpairs q (.tail _ hq)) (fun q hq => hcall q (.tail _ hq)) hrest
    have hkept := hpassing.mono (arguments_remember hrest)
    refine ⟨passing :: passings, .cons hkept hpassings, rfl, ?_⟩
    rw [hemissions, hemission, Emission.add_add]
    rfl

/-! ### The payload -/

end Lower

/-- The field of the packet that a component is. -/
def Program.componentField? (p : Program) (c : Component) : Option PacketField :=
  p.fieldOf? c.value

namespace Lower

variable {c : Component} {a e : Expr} {arg : ExprId} {param : Param}

/-- Copies a field of the packet into a member of the variable. -/
def extraction (var : String) (l : PacketField) (member : String) : String :=
  extractPacket l l.fieldInstance s!"&({var}.{member})"

/-- The code for a field of the struct and the component at its place. -/
def payloadCode (env : Env) (var : String) (q : Field × Component) : List String :=
  let trace (label : String) :=
    if env.config.emitDebugTraces then [bytesTrace var q.1 label] else []
  if q.1.size ≤ 32 then trace s!"T4LIT({q.2.name},field)"
  else
    match env.program.componentField? q.2 with
    | none => []
    | some l => extraction var l q.1.name ::
        trace s!"T4LIT({l.header},header) \".\" T4LIT({l.field},field)"

theorem trace_adds (var : String) (f : Field) (label : String) :
    Adds env (do if ← traces then hoist (bytesTrace var f label)) ()
      (if env.config.emitDebugTraces then [bytesTrace var f label] else []) [] := by
  refine .after_pure (a := env.config.emitDebugTraces) rfl ?_
  cases env.config.emitDebugTraces with
  | true => exact .hoist _
  | false => exact .of_pure rfl

theorem payloadField_adds (wf : env.program.WellFormed) (var : String) (f : Field)
    (he : env.At c.value e) :
    Adds env (payloadField var f c) () (payloadCode env var (f, c)) [] := by
  refine .after_pure (look_of_ok he) ?_
  unfold payloadCode
  rw [Program.componentField?, fieldOf?_of_ok he]
  dsimp only
  by_cases hsize : f.size ≤ 32
  · rw [if_pos hsize, if_pos hsize]
    exact trace_adds var f _
  · rw [if_neg hsize, if_neg hsize]
    cases href : e.fieldRef? with
    | none => exact .of_pure rfl
    | some ref =>
      obtain ⟨l, hl⟩ := exists_packetField (wf.resolves he href)
      rw [Option.bind_some, hl]
      refine .after_pure (look_of_ok hl) ?_
      exact (Adds.hoist (extraction var l f.name)).bind (trace_adds var f _)

/-- The code for the fields of a struct and the components, side by side. -/
def payloadCodes (env : Env) (var : String) (fields : List Field) (components : List Component) :
    List String :=
  (fields.zip components).flatMap (payloadCode env var)

/-- The declaration of a variable, the code for its members, and its copy into the storage. -/
def payloadPieces (type var value storage : String) (codes : List String) : List String :=
  s!"{type} {var} = {value};" ::
    (codes ++ [s!"memcpy(&({storage}), &{var}, sizeof({type}));"])

/-- The code for the members of a payload that is a struct initializer. -/
def memberCodes (env : Env) (var : String) (a : Expr) : List String :=
  match a.ty, a.node with
  | .struct id, .structInit components =>
    match env.program.typeDecl id with
    | .ok d => payloadCodes env var d.fields components
    | .error _ => []
  | _, _ => []

theorem payloadMembers_adds (wf : env.program.WellFormed) (var : String) (ha : env.At arg a) :
    Adds env (payloadMembers var a) () (memberCodes env var a) [] := by
  unfold payloadMembers
  split
  · rename_i id components hty hnode
    obtain ⟨d, hd⟩ : ∃ d, env.program.typeDecl id = .ok d :=
      wf.exists_typeDecl (.expr (Program.mem_of_expr ha)) (hty ▸ .struct id)
    simp only [memberCodes, hty, hnode, hd]
    refine .after_pure (look_of_ok hd) (.forM fun q hq => ?_)
    have hpart : a.node.Mentions q.2.value := hnode ▸ .component (List.of_mem_zip hq).2
    obtain ⟨e, he⟩ := wf.exists_part ha hpart
    exact payloadField_adds wf var q.1 he
  · simp only [memberCodes]
    exact .of_pure rfl

theorem exists_of_payload (wf : env.program.WellFormed) (ha : env.At arg a)
    {storage type : String} {receiverArgs : List Ty}
    (h : payload expr arg param storage receiverArgs env s = (.ok type, u)) :
    ∃ s₀ var s₁ value s₂,
      payloadType a receiverArgs env s = (.ok (env.payloadType a receiverArgs), s₀) ∧
      freshName "var" env s₀ = (.ok var, s₁) ∧
      argument expr arg param env s₁ = (.ok value, s₂) ∧
      u = ⟨s₂.memory, s₂.emission.add (payloadPieces (env.payloadType a receiverArgs) var value
        storage (memberCodes env var a)) []⟩ := by
  unfold payload at h
  rw [bind_of_pure (look_of_ok ha)] at h
  obtain ⟨used, s₀, hused, h⟩ := exists_of_bind h
  obtain rfl := (payloadType_notes a receiverArgs).eq_of_returns ⟨_, _, hused⟩
  obtain ⟨var, s₁, hvar, h⟩ := exists_of_bind h
  obtain ⟨value, s₂, hvalue, h⟩ := exists_of_bind h
  refine ⟨s₀, var, s₁, value, s₂, hused, hvar, hvalue, ?_⟩
  have hpieces : Adds env (do
      hoist s!"{env.payloadType a receiverArgs} {var} = {value};"
      payloadMembers var a
      hoist s!"memcpy(&({storage}), &{var}, sizeof({env.payloadType a receiverArgs}));"
      return env.payloadType a receiverArgs) (env.payloadType a receiverArgs)
      (payloadPieces (env.payloadType a receiverArgs) var value storage (memberCodes env var a))
      [] :=
    (Adds.hoist _).bind ((payloadMembers_adds wf var ha).bind ((Adds.hoist _).bind (.of_pure rfl)))
  cases h.symm.trans (hpieces s₂)
  rfl

end Lower

end PacketC
