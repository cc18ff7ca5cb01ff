import PacketC.Proofs.Traces.Stores

/-! Statements are the same code with traces and without, and a session that lowers one remembers
the same. What the statements in a statement are lowered to is put together in the same way, so
this goes up from assignments and calls to the whole statement. -/

namespace PacketC

open Text

/-- A trace that can stand above other code, or none. -/
def IsOptionalTrace (lines : List String) : Prop :=
  lines = [] ∨ ∃ line, lines = [line] ∧ TraceLine line ∧ Ended line

/-- A line of code with a trace above it or not. -/
theorem SameCode.tracedAbove {a b : List String} {line : String} (ha : IsOptionalTrace a)
    (hb : IsOptionalTrace b) (hline : Ended line) :
    SameCode (unlines (a ++ [line])) (unlines (b ++ [line])) := by
  have hplain : ∀ {a}, IsOptionalTrace a → SameCode (unlines (a ++ [line])) line := by
    rintro _ (rfl | ⟨t, rfl, ht, hended⟩)
    · simpa using SameCode.ended hline
    · rw [unlines_append (List.cons_ne_nil _ _) (List.cons_ne_nil _ _),
        unlines_singleton, unlines_singleton]
      exact .trace_above hended ht.isSilent hline.unfinished hline.isBlank_eq_false
  exact (hplain ha).trans (hplain hb).symm

namespace Lower

variable {env : Env} {on : Bool} {P : Prop}

/-- The action only reads, and what it comes to has the property. -/
def Reads (env : Env) {α : Type} (Q : α → Prop) (x : LowerM α) : Prop :=
  ∃ a, x env = (Pure.pure a : LowerM α) env ∧ Q a

namespace Reads

variable {α β : Type} {Q : β → Prop}

theorem pure {b : β} (h : Q b) : Reads env Q (Pure.pure b) := ⟨b, rfl, h⟩

theorem known {x : LowerM α} {a : α} {f : α → LowerM β}
    (h : x env = (Pure.pure a : LowerM α) env) (k : Reads env Q (f a)) : Reads env Q (x >>= f) := by
  obtain ⟨b, hb, hQ⟩ := k
  exact ⟨b, (bind_of_pure h).trans hb, hQ⟩

theorem look {g : Program → Except ProgramError α} {f : α → LowerM β}
    (hok : ∃ a, g env.program = .ok a)
    (k : ∀ a, g env.program = .ok a → Reads env Q (f a)) : Reads env Q (Lower.look g >>= f) := by
  obtain ⟨a, ha⟩ := hok
  exact known (look_of_ok ha) (k a ha)

end Reads

/-! ### Declarations -/

theorem variableDecl_unfinished (ty : Ty) (name : String) (initializer : Option ExprId) :
    Results env Unfinished (variableDecl expr ty name initializer) := by
  refine .bind fun tag _ => ?_
  split
  · exact .pure nofun
  · split
    · dsimp only
      split
      · exact .bind fun _ _ => .pure (Ended.unfinished (.append _ rfl))
      · exact .pure (Ended.unfinished (.append _ rfl))
    · refine .bind fun declared _ => ?_
      split
      · exact .pure (Ended.unfinished (.append _ rfl))
      · refine .bind fun value _ => ?_
        split <;> exact .pure (Ended.unfinished (.append _ rfl))

theorem instanceDecl_unfinished (ty : Ty) (name : String) :
    Results env Unfinished (instanceDecl ty name) := by
  have hend : ∀ type : String, Results env Unfinished (do
      hoist s!"extern void {type}_init({type}*);"
      return s!"{type} {name};\n{type}_init(&{name});") := fun type =>
    .bind fun _ _ => .pure (Ended.unfinished (.append _ rfl))
  unfold instanceDecl
  dsimp only
  split
  · simp only [map_eq_pure_bind, bind_assoc, pure_bind]
    exact .bind fun t _ => hend _
  · exact .bind fun _ _ => hend _

theorem constDecl_unfinished (ty : Ty) (name : String) (value : ExprId) :
    Results env Unfinished (constDecl expr ty name value) := by
  refine .bind fun declared _ => .bind fun e _ => ?_
  dsimp only
  split
  · exact .pure (Ended.unfinished (.append _ rfl))
  · exact .bind fun _ _ => .pure (Ended.unfinished (.append _ rfl))

/-- A parameter alone is not ended by a mark, but by a name. -/
theorem declaration_unfinished (hone : env.toTypeScope.Unbroken) (id : DeclId) :
    Results env Unfinished (declaration expr id none) := by
  refine .bind fun d hd => ?_
  have hname : Unbroken d.name :=
    hone.names _ (.decl (Program.mem_of_lookup hd.of_look))
  dsimp only
  split
  · exact variableDecl_unfinished _ _ _
  · exact instanceDecl_unfinished _ _
  · refine .bind fun type htype => .pure ?_
    obtain ⟨s, t, htype⟩ := htype
    cases htype
    exact Unbroken.unfinished (.append (.append (hone.typeTexts.render _ _) rfl) hname)
  · exact constDecl_unfinished _ _ _
  · exact .bind fun _ _ => .pure nofun
  · exact .pure (Unbroken.unfinished rfl)
  · exact .pure (Unbroken.unfinished rfl)

section Statements

variable (wf : env.program.WellFormed) (hone : env.toTypeScope.Unbroken)

include wf hone

theorem declaration_alike {id : DeclId}
    (hr : ∀ d e, env.program.decl id = .ok d → d.body.StartsFrom e → Indifferent env on e) :
    Alike P SameCode env on (declaration expr id none) := by
  by_cases hid : id.index < env.program.decls.size
  · refine Twins.mono (Twins.spells (.step ?_) (.of_results ?_ (declaration_unfinished hone id))) ?_
    · exact declaration_inStep (Licence.indifferent_suits wf on) none
        (fun _ => Program.exists_lookup hid) hr
    · exact declaration_inStep (Licence.any_suits _) none (fun h => h.strict.elim)
        fun _ _ _ _ => trivial
    · rintro text _ ⟨rfl, htext⟩
      exact .refl htext
  · refine .look fun d hd => absurd ?_ hid
    exact (Array.getElem?_eq_some_iff.1 (Program.lookup_eq_ok_iff.1 hd)).1

/-! ### Calls -/

omit hone in
theorem sendHeader_alike {args : List ExprId} (hr : ∀ a ∈ args, Indifferent env on a) :
    Alike P SameCode env on (sendHeader expr args) := by
  unfold sendHeader
  split
  · exact .fail
  · rename_i arg rest
    refine .look fun e he => ?_
    refine .bind_same (.step (headerSlot_inStep (Licence.indifferent_suits wf on)
      (fun _ i hi => wf.exists_header he hi) (wf.id_eq he ▸ hr arg (.head rest)) _))
      fun index _ => ?_
    refine .pure (.ended (.unlines (List.cons_ne_nil _ _) ?_))
    simp only [List.forall_mem_cons]
    exact ⟨rfl, .append _ rfl, rfl, List.forall_mem_nil _⟩

variable {id : ExprId}

omit wf hone in
theorem callLine_alike (hr : Indifferent env on id) (e : Expr) :
    Alike P (fun a b => a = b ∧ Ended a) env on (callLine expr id e) := by
  refine .bind_same (hr P _) fun text _ => ?_
  split
  · exact .bind_same (.step (.warn ..)) fun _ _ => .pure ⟨rfl, rfl⟩
  · exact .pure ⟨rfl, .append _ rfl⟩

theorem validityTrace_reads {method : Expr} (hm : env.At id method) :
    Reads env IsOptionalTrace (validityTrace method) := by
  refine .known (a := env.config.emitDebugTraces) rfl ?_
  split
  · rename_i m hmember _
    have hnode := node_of_member? hmember
    split
    · exact .pure (.inl rfl)
    · rename_i state hstate
      have hstate : Unbroken state := by
        unfold validity? at hstate
        split at hstate <;> cases hstate <;> exact rfl
      have hline : ∀ header : String, Unbroken header → Reads env IsOptionalTrace (pure
          [s!"debug(\"   :: Setting header instance \" T4LIT({header},header) \" as \" " ++
            s!"T4LIT({state},success) \"\\n\");"]) := fun header hheader =>
        .pure (.inr ⟨_, rfl, .append (.arg ⟨rfl, rfl⟩ hheader rfl) (.arg rfl hstate rfl),
          .append _ (.append _ rfl)⟩)
      refine .look (wf.exists_part hm (hnode ▸ .base m)) fun receiver hreceiver => ?_
      dsimp only
      split
      · rename_i i hi
        simp only [map_eq_pure_bind, bind_assoc, pure_bind]
        refine .look (wf.exists_header hreceiver hi) fun header hheader => hline _ ?_
        exact hone.header hheader
      · exact hline _ (hone.names _ (.member (Program.mem_of_expr hm) hnode))
  · exact .pure (.inl rfl)

theorem runCall_alike (hdigests : env.program.PlainDigests id)
    (hr : ∀ i, env.program.Reaches id i → Indifferent env on i) :
    Alike P SameCode env on (runCall expr id) := by
  refine .look fun e he => ?_
  split
  · rename_i call hnode
    have harg : ∀ a ∈ call.args, Indifferent env on a := fun a ha =>
      hr a (.part ⟨e, he, hnode ▸ .arg ha⟩ (.refl a))
    refine .look fun method hm => ?_
    split
    · rename_i hname
      obtain ⟨path, hpath, hname⟩ := Option.map_eq_some_iff.1 hname
      refine digestStatement_alike wf hone (Licence.allowsCall_node he hnode harg)
        fun receiver fields hpair => ?_
      exact hdigests id receiver (.refl id)
        ⟨e, call, method, path, fields, he, hnode, hm, node_of_path? hpath, hname, hpair⟩
    · refine .config (.ask _ ?_)
      split
      · exact sendHeader_alike wf harg
      · obtain ⟨trace, htrace, hoptional⟩ := validityTrace_reads wf hone hm
        have wf' : (env.tracing on).program.WellFormed := wf
        have hone' : (env.tracing on).toTypeScope.Unbroken := ⟨hone.names, hone.aliases⟩
        obtain ⟨trace', htrace', hoptional'⟩ := validityTrace_reads wf' hone' hm
        refine .known htrace htrace' (.bind (callLine_alike (hr id (.refl id)) e) ?_)
        rintro line _ ⟨rfl, hline⟩ _
        exact .pure (.tracedAbove hoptional hoptional' hline)
  · exact .fail

/-! ### Bodies -/

omit wf hone in
theorem enclosed_alike {x : LowerM String} (h : Alike False SameCode env on x) :
    Alike False SameCode env on (enclosed x) :=
  h.framed.bind fun _ _ hq _ => .pure (hq.2.bodyText hq.1)

omit wf hone in
theorem bodyBy_alike {inner : Statement → LowerM String} {s : Option Statement}
    (h : ∀ t, s = some t → Alike False SameCode env on (inner t)) :
    Alike False SameCode env on (bodyBy inner s) := by
  cases s with
  | none => exact .pure (.ended rfl)
  | some t => exact enclosed_alike (h t rfl)

omit wf hone in
theorem controlLock_alike : Alike P Eq env on controlLock := by
  have hnote : ∀ ds, Alike P Eq env on (note ds) :=
    fun ds s t h => .ok rfl ((parallel_sameRun env.program P).note h ds)
  have hsame : ((env.tracing on).block.bind fun id => (env.tracing on).program.blocks[id.index]?) =
    env.block.bind fun id => env.program.blocks[id.index]? := rfl
  refine .known (a := env) (b := env.tracing on) rfl rfl ?_
  rw [hsame]
  split
  · exact .pure rfl
  · exact .bind_same (hnote _) fun _ _ => .pure rfl

omit wf hone in
theorem caseLabel_alike (hr : Indifferent env on id) : Alike P Eq env on (caseLabel expr id) := by
  refine .look fun e _ => ?_
  split
  · exact .pure rfl
  · refine .bind_same (hr P _) fun text _ => ?_
    split
    · exact .bind_same (.step (.report ..)) fun _ _ => .pure rfl
    · exact .pure rfl

/-! ### Statements -/

/-- The operands of an assignment are plain, and so are the receivers of the digests that the
statement reaches. -/
structure Traceable (p : Program) (s : Statement) : Prop where
  left : ∀ l r, s = .assign l r → p.Plain l
  right : ∀ l r, s = .assign l r → p.Plain r
  digests : ∀ e ∈ s.expressions, p.PlainDigests e
  declared : ∀ id d e, s = .decl id → p.decl id = .ok d → d.body.StartsFrom e → p.PlainDigests e

theorem statementStep_alike {s : Statement} (h : Traceable env.program s)
    {inner : Statement → LowerM String}
    (hi : ∀ c ∈ s.children, Alike False SameCode env on (inner c)) :
    Alike False SameCode env on (statementStep expr inner s) := by
  have hr : ∀ e ∈ s.expressions, Indifferent env on e := fun e he =>
    indifferent_of_plainDigests wf hone (h.digests e he)
  cases s with
  | assign left right =>
    exact assign_alike wf hone (hr left (.head _)) (hr right (.tail _ (.head _)))
      (h.left left right rfl) (h.right left right rfl)
  | block components annotations =>
    have hparts : ∀ lock, Alike False SameCode env on (do
        let parts ← components.mapM fun s => enclosed (inner s)
        return blockText (← config) lock parts) := fun lock =>
      .bind (.mapM fun c hc => enclosed_alike (hi c hc)) fun parts parts' hparts _ =>
        .config (.pure (.blockText env.config lock hparts))
    unfold statementStep
    dsimp only
    split
    · exact .bind_same controlLock_alike fun lock _ => hparts lock
    · exact .bind_same (.pure rfl) fun lock _ => hparts lock
  | cond condition ifTrue ifFalse =>
    simp only [Statement.children, List.mem_append, Option.mem_toList] at hi
    refine .bind (bodyBy_alike fun t ht => hi t (.inl ht)) fun t t' ht _ => ?_
    refine .bind (bodyBy_alike fun t ht => hi t (.inr ht)) fun f f' hf _ => ?_
    refine .bind_same (hr condition (.head _) False _) fun c _ => .config (.pure ?_)
    exact .condText env.config.indentation _ ht hf
  | call e =>
    refine runCall_alike wf hone (h.digests e (.head _)) fun i hi => ?_
    exact indifferent_of_plainDigests wf hone ((h.digests e (.head _)).reached hi)
  | switch selector cases =>
    refine .bind_same (hr selector (.head _) False _) fun c _ => ?_
    refine .bind (V := List.Forall₂ SameArm) (.mapM fun a ha => ?_) fun arms arms' harms _ => ?_
    · have hlabel : a.label ∈ (Statement.switch selector cases).expressions :=
        .tail _ (List.mem_map_of_mem ha)
      refine .bind_same (caseLabel_alike (hr _ hlabel)) fun label _ => ?_
      refine .bind (bodyBy_alike fun t ht => hi t ?_) fun body body' hbody _ => ?_
      · exact List.mem_filterMap.2 ⟨a, ha, ht⟩
      · exact .pure ⟨rfl, hbody⟩
    · exact .config (.pure (.switchText env.config.indentation _ harms))
  | decl id =>
    refine declaration_alike wf hone fun d e hd he => ?_
    exact indifferent_of_plainDigests wf hone (h.declared id d e rfl hd he)
  | empty => exact .pure (.ended rfl)

theorem statement_alike {s : Statement} (h : ∀ t, s.Holds t → Traceable env.program t) :
    Alike False SameCode env on (statement expr s) := by
  rw [statement_eq_step expr]
  refine statementStep_alike wf hone (h s (.self s)) fun c hc => ?_
  exact statement_alike fun t ht => h t (.child hc ht)
termination_by sizeOf s
decreasing_by exact sizeOf_lt_of_mem_children hc

end Statements

/-- The code of all frames is the same up to traces. -/
theorem SameRun.gathered {s t : State} (h : SameRun P s t) :
    untraced (s.emission.gathered.pre.flatMap Text.lines) =
        untraced (t.emission.gathered.pre.flatMap Text.lines) ∧
      s.emission.gathered.post = t.emission.gathered.post := by
  have hframes : List.Forall₂ SameFrame (s.emission.current :: s.emission.outer).reverse
      (t.emission.current :: t.emission.outer).reverse :=
    List.rel_reverse (.cons h.current h.outer)
  unfold Emission.gathered
  dsimp only
  generalize (s.emission.current :: s.emission.outer).reverse = fs,
    (t.emission.current :: t.emission.outer).reverse = gs at hframes ⊢
  induction hframes with
  | nil => exact ⟨rfl, rfl⟩
  | cons hframe _ ih =>
    simp only [List.flatMap_cons, List.flatMap_append, untraced_append]
    exact ⟨by rw [hframe.lines, ih.1], by rw [hframe.post, ih.2]⟩

end Lower

/-- Two calls fail alike, or come to the same code once the traces are deleted. -/
inductive SameOutcome : Except LowerError Fragment → Except LowerError Fragment → Prop
  | error (e : LowerError) : SameOutcome (.error e) (.error e)
  | ok {f g : Fragment} (kind : f.kind = g.kind)
      (pre : untraced (f.pre.flatMap Text.lines) = untraced (g.pre.flatMap Text.lines))
      (text : untraced (Text.lines f.text) = untraced (Text.lines g.text))
      (post : f.post = g.post) : SameOutcome (.ok f) (.ok g)

/-- The session with traces or without. -/
def Session.tracing (on : Bool) (s : Session) : Session := { s with config := s.config.tracing on }

/-- Traces have no influence. Whether they are asked for or not, a call has the same outcome up to
traces, and the session remembers the same: names, buffers and diagnostics. -/
theorem Session.lowerStatement_tracing {p : Program} (hv : p.validate = .ok ()) {s : Session}
    (hs : s.Reachable) (hone : (s.scope p).Unbroken) {stmt : Statement}
    (hassign : ∀ left right, stmt.Holds (.assign left right) → p.Plain left ∧ p.Plain right)
    (hdigests : ∀ e, (Task.stmt stmt).Starts p e → p.PlainDigests e) (block : Option BlockId)
    (on : Bool) :
    SameOutcome (s.lowerStatement p stmt block).1 ((s.tracing on).lowerStatement p stmt block).1 ∧
      ((s.tracing on).lowerStatement p stmt block).2 =
        (s.lowerStatement p stmt block).2.tracing on := by
  have wf : p.WellFormed := .of_validate hv
  have htraceable : ∀ t, stmt.Holds t → Lower.Traceable p t := fun t ht =>
    { left := fun l r h => (hassign l r (h ▸ ht)).1
      right := fun l r h => (hassign l r (h ▸ ht)).2
      digests := fun e he => hdigests e (.inr ⟨t, ht, he⟩)
      declared := by
        rintro id d e rfl hd he
        exact hdigests e (.inl ⟨id, d, ht, hd, he⟩) }
  have hstart : Lower.SameRun False s.initial s.initial :=
    ⟨rfl, hs.sound, .none, .nil, False.elim⟩
  have htwins : Lower.Twins (Lower.SameRun False) SameCode (s.env p block)
      ⟨(s.tracing on).scope p, block⟩ (Lower.statement Lower.expr stmt)
      (Lower.statement Lower.expr stmt) := Lower.statement_alike wf hone htraceable
  have hend := htwins _ _ hstart
  unfold lowerStatement
  cases hleft : Lower.statement Lower.expr stmt (s.env p block) s.initial with
  | mk result state =>
    cases hright : Lower.statement Lower.expr stmt ⟨(s.tracing on).scope p, block⟩
        s.initial with
    | mk result' state' =>
      rw [hleft, hright] at hend
      cases hend with
      | ok hcode hrun =>
        rw [run_of_ok hleft, run_of_ok (s := s.tracing on) hright]
        exact ⟨.ok rfl hrun.gathered.1 hcode.lines hrun.gathered.2, by rw [hrun.memory]; rfl⟩
      | error e hrun =>
        rw [run_of_error hleft, run_of_error (s := s.tracing on) hright]
        exact ⟨.error e, by rw [hrun.memory]; rfl⟩

/-- A header that is stamped, and reports of it to the control plane: by a digest, and by an object
that takes a struct. -/
def stampAndReport : Program where
  exprs := #[.packet, .packetHeader, .packetField 2 (.bits 8 false) "f" 0, .number 3 8 5,
    .method 4 "setValid" 1, .called 5 4 [], .free 6 .void "digest", .number 7 32 1, .list 8 [⟨2⟩],
    ⟨⟨9⟩, .void, .call ⟨⟨6⟩, [.struct ⟨1⟩], [⟨7⟩, ⟨8⟩]⟩⟩, ⟨⟨10⟩, .bool, .bool true⟩,
    .free 11 (.specialized ⟨2⟩ [.struct ⟨1⟩]) "d", .method 12 "pack" 11,
    ⟨⟨13⟩, .struct ⟨1⟩, .structInit [⟨"f", ⟨2⟩⟩]⟩, .called 14 12 [⟨13⟩]]
  typeDecls := #[⟨"t", .header [⟨"f", .bits 8 false⟩]⟩,
    ⟨"report", .struct [⟨"f", .bits 8 false⟩] false⟩,
    ⟨"Digest", .external ["T"] [⟨"pack", [], [⟨"data", .into, .var "T"⟩], .void⟩]⟩]
  headers := #[⟨"h", ⟨0⟩, false⟩]

def stamp : Statement := .assign ⟨2⟩ ⟨3⟩

def stampOrReport : Statement :=
  .cond ⟨10⟩ (some (.block [stamp, .call ⟨5⟩] [])) (some (.block [.call ⟨9⟩, .call ⟨14⟩] []))

theorem stampOrReport_assigns {left right : ExprId}
    (h : stampOrReport.Holds (.assign left right)) : left = ⟨2⟩ ∧ right = ⟨3⟩ := by
  have hcall : ∀ e, ¬(Statement.call e).Holds (.assign left right) := by
    rintro e (_ | ⟨hc, -⟩)
    cases hc
  cases h with
  | child hc h =>
    simp only [stampOrReport, Statement.children, Option.toList_some, List.cons_append,
      List.nil_append, List.mem_cons, List.not_mem_nil, or_false] at hc
    rcases hc with rfl | rfl
    · cases h with
      | child hc h =>
        simp only [Statement.children, List.mem_cons, List.not_mem_nil, or_false] at hc
        rcases hc with rfl | rfl
        · cases h with
          | self => exact ⟨rfl, rfl⟩
          | child hc _ => cases hc
        · exact (hcall _ h).elim
    · cases h with
      | child hc h =>
        simp only [Statement.children, List.mem_cons, List.not_mem_nil, or_false] at hc
        rcases hc with rfl | rfl <;> exact (hcall _ h).elim

theorem stampAndReport_sendsTo {id receiver : ExprId} (h : stampAndReport.SendsTo id receiver) :
    receiver = ⟨7⟩ := by
  obtain ⟨e, call, method, path, fields, he, hnode, -, -, -, hargs⟩ := h
  have hmem := Array.mem_toList_iff.2 (Program.mem_of_expr he)
  simp only [stampAndReport, List.mem_cons, List.not_mem_nil, or_false] at hmem
  rcases hmem with rfl | rfl | rfl | rfl | rfl | rfl | rfl | rfl | rfl | rfl | rfl | rfl | rfl |
    rfl | rfl <;> cases hnode <;> cases hargs
  rfl

/-- Both branches are traced, and the payload of the object is a struct. -/
theorem stampOrReport_tracing : stampAndReport.validate = .ok () ∧
    stampOrReport.Holds stamp ∧
    (∃ field value,
      ((Session.start .standard).lowerStatement stampAndReport stamp none).1 =
        .ok ⟨.statements, [],
          Text.unlines [Lower.setField field value, Lower.shortFieldTrace field], []⟩ ∧
      (((Session.start .standard).tracing false).lowerStatement stampAndReport stamp none).1 =
        .ok ⟨.statements, [], Text.unlines [Lower.setField field value], []⟩) ∧
    SameOutcome ((Session.start .standard).lowerStatement stampAndReport stampOrReport none).1
      (((Session.start .standard).tracing false).lowerStatement stampAndReport stampOrReport
        none).1 ∧
    (((Session.start .standard).tracing false).lowerStatement stampAndReport stampOrReport none).2 =
      ((Session.start .standard).lowerStatement stampAndReport stampOrReport none).2.tracing
        false := by
  have wf : stampAndReport.WellFormed := .of_validate rfl
  have hplain : ∀ id : ExprId, id.index < 13 → stampAndReport.Plain id := fun _ hid _ _ =>
    wf.reached_of_take (f := (·.node.isPlain)) hid rfl
  have hall : (stampAndReport.sayings.all fun text => text.toList.all (· != '\n')) = true := rfl
  have hone : ((Session.start .standard).scope stampAndReport).Unbroken :=
    ⟨fun text htext => List.all_eq_true.1 hall text htext, nofun⟩
  refine ⟨rfl, .child (.head _) (.child (.head _) (.self _)), ⟨_, _, rfl, rfl⟩, ?_⟩
  refine Session.lowerStatement_tracing rfl (.start _) hone (fun left right h => ?_)
    (fun e _ target receiver _ hsends => ?_) none false
  · obtain ⟨rfl, rfl⟩ := stampOrReport_assigns h
    exact ⟨hplain _ (by decide), hplain _ (by decide)⟩
  · rw [stampAndReport_sendsTo hsends]
    exact hplain _ (by decide)

end PacketC
