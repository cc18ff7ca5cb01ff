import PacketC.Proofs.Lists.Copies
import PacketC.Proofs.Lower.FirstVisit
import PacketC.Proofs.Scope.Tracks

/-! Buffers are assembled once in a run. Wherever a list is lowered its text is the same, and the
code that assembles its buffer is put out where the list is visited first, and nowhere else. The
variables of a transition's keys are treated likewise. -/

namespace PacketC

namespace Lower

variable {env : Env} {id : ExprId} {e : Expr} {items keys : List ExprId} {m : Memory}

theorem firstTime_of_mem {s : State} (h : id ∈ s.memory.generated) :
    firstTime id env s = (.ok false, s) := by
  rw [run_firstTime]
  exact if_pos (List.contains_iff_mem.2 h)

theorem firstTime_of_not_mem {s : State} (h : id ∉ s.memory.generated) :
    firstTime id env s = (.ok true, s.mark id) := by
  rw [run_firstTime]
  exact if_neg fun hgen => h (List.contains_iff_mem.1 hgen)

/-! ### Lists -/

/-- How the buffer of a list is passed. -/
def bufferValue (name : String) : String :=
  s!"(struct uint8_buffer_s) \x7b .buffer = {name}, .buffer_size = {name}_size \x7d"

section Marked

variable (env) (wf : env.program.WellFormed) (he : env.At id e)

include wf he

section

variable (hnode : e.node = .list items)

include hnode

/-- A list that has been written before is only named. -/
theorem expr_list_of_mem (hgen : id ∈ m.generated) (mode : Mode) (emission : Emission) :
    expr id mode env ⟨m, emission⟩ = (.ok (bufferValue (m.names.named "buffer" id.text).1),
      ⟨{ m with names := (m.names.named "buffer" id.text).2 }, emission⟩) := by
  obtain rfl := wf.id_eq he
  rw [expr_eq_nodeText wf he, nodeText, hnode]
  dsimp only
  rw [bufferText, run_bind, run_nameOf]
  dsimp only
  rw [run_bind, firstTime_of_mem hgen]
  rfl

/-- Where a list is lowered first, it is marked, the code that fills its buffer is put out, and the
items that are left out of it are noted. -/
theorem expr_list_of_not_mem (hgen : id ∉ m.generated) (mode : Mode) (emission : Emission) :
    expr id mode env ⟨m, emission⟩ = (.ok (bufferValue (m.names.named "buffer" id.text).1),
      ⟨⟨(m.names.named "buffer" id.text).2, id :: m.generated,
          m.diagnostics ++ env.program.skipNotes items⟩,
        emission.prepend
          (env.program.listAssembly items (m.names.named "buffer" id.text).1)⟩) := by
  have hcode := bufferCode_eq wf he hnode
  obtain rfl := wf.id_eq he
  rw [expr_eq_nodeText wf he, nodeText, hnode]
  dsimp only
  rw [bufferText, run_bind, run_nameOf]
  dsimp only
  rw [run_bind, firstTime_of_not_mem hgen]
  dsimp only
  rw [if_pos rfl, run_bind, hcode]
  rfl

/-- A list is passed under the name of its buffer, whose code is put out unless it has been. -/
theorem exists_expr_list (m : Memory) (mode : Mode) (emission : Emission) :
    ∃ m', m'.names = (m.names.named "buffer" id.text).2 ∧
      expr id mode env ⟨m, emission⟩ = (.ok (bufferValue (m.names.named "buffer" id.text).1),
        ⟨m', if id ∈ m.generated then emission else emission.prepend
          (env.program.listAssembly items (m.names.named "buffer" id.text).1)⟩) := by
  by_cases hgen : id ∈ m.generated
  · rw [if_pos hgen, expr_list_of_mem env wf he hnode hgen]
    exact ⟨_, rfl, rfl⟩
  · rw [if_neg hgen, expr_list_of_not_mem env wf he hnode hgen]
    exact ⟨_, rfl, rfl⟩

end

/-! ### Transitions -/

/-- The branches of a transition whose keys have the given names. -/
def branches (keys : List ExprId) (arms : List SelectArm) (names : List String) :
    LowerM String := do
  return String.intercalate "\nelse\n" (← arms.mapM (branch expr (keys.zip names)))

variable {arms : List SelectArm} (hnode : e.node = .select keys arms)

include hnode

/-- A transition that has been written before declares nothing. -/
theorem expr_select_of_mem (hgen : id ∈ m.generated) (mode : Mode) (emission : Emission) :
    expr id mode env ⟨m, emission⟩ =
      (keyNames expr false keys >>= branches keys arms) env ⟨m, emission⟩ := by
  obtain rfl := wf.id_eq he
  rw [expr_eq_nodeText wf he, nodeText, hnode]
  dsimp only
  rw [transition, run_bind, firstTime_of_mem hgen]
  rfl

/-- A transition that has not been written before is marked, and its keys are declared. -/
theorem expr_select_of_not_mem (hgen : id ∉ m.generated) (mode : Mode) (emission : Emission) :
    expr id mode env ⟨m, emission⟩ = (keyNames expr true keys >>= branches keys arms) env
      ⟨{ m with generated := id :: m.generated }, emission⟩ := by
  obtain rfl := wf.id_eq he
  rw [expr_eq_nodeText wf he, nodeText, hnode]
  dsimp only
  rw [transition, run_bind, firstTime_of_not_mem hgen]
  rfl

end Marked

/-- Keys that are not declared are only named. -/
theorem exists_keyNames_undeclared (env : Env) (keys : List ExprId) (m : Memory)
    (emission : Emission) :
    ∃ names m', keyNames expr false keys env ⟨m, emission⟩ = (.ok names, ⟨m', emission⟩) := by
  induction keys generalizing m with
  | nil => exact ⟨[], m, rfl⟩
  | cons key rest ih =>
    obtain ⟨names, m', hrest⟩ := ih { m with names := (m.names.named "value" key.text).2 }
    refine ⟨(m.names.named "value" key.text).1 :: names, m', ?_⟩
    rw [keyNames, run_bind, run_nameOf]
    dsimp only
    rw [if_neg Bool.false_ne_true, run_bind, hrest]
    rfl

theorem declareKey_remembers (env : Env) (key : ExprId) (name : String) (s : State) :
    s.memory.Grows (declareKey expr key name env s).2.memory :=
  have hstep : InStep env env .any expr expr _ _ :=
    declareKey_inStep (Licence.any_suits _) (Licence.any_allows env key) name
  hstep.remembers s

theorem keyNames_remembers (env : Env) (declare : Bool) (keys : List ExprId) (s : State) :
    s.memory.Grows (keyNames expr declare keys env s).2.memory :=
  have hstep : InStep env env .any expr expr _ _ :=
    keyNames_inStep (Licence.any_suits _) declare fun k _ => Licence.any_allows env k
  hstep.remembers s

theorem branches_remembers (env : Env) (keys : List ExprId) (arms : List SelectArm)
    (names : List String) (s : State) : s.memory.Grows (branches keys arms names env s).2.memory :=
  have hstep : InStep env env .any expr expr (branches keys arms names)
      (branches keys arms names) :=
    .bind (.mapM fun _ _ => branch_inStep (Licence.any_suits _) (fun h => h.strict.elim)
      (fun h => h.strict.elim) fun _ _ => trivial) fun _ _ => .pure _
  hstep.remembers s

/-- The names of keys are those that are remembered. -/
theorem keyNames_eq_lookup {declare : Bool} {s t : State} {names : List String}
    (h : keyNames expr declare keys env s = (.ok names, t)) {final : NameSupply}
    (hext : t.memory.names.Extends final) :
    names = keys.map fun key => (final.memo.lookup ("value", key.text)).getD "" := by
  induction keys generalizing s names with
  | nil =>
    cases h
    rfl
  | cons key rest ih =>
    obtain ⟨name, u, hu, h⟩ := exists_of_bind h
    have hlookup : u.memory.names.memo.lookup ("value", key.text) = some name := by
      cases hu
      exact s.memory.names.lookup_named "value" key.text
    clear hu
    -- the rest of the keys comes after the key has its name, declared or not
    have hrest : ∀ {v : State}, u.memory.Grows v.memory →
        (do return name :: (← keyNames expr declare rest) : LowerM (List String)) env v =
          (.ok names, t) →
        names = (key :: rest).map fun key => (final.memo.lookup ("value", key.text)).getD "" := by
      intro v hgrows h
      obtain ⟨others, w, hw, h⟩ := exists_of_bind h
      have hmore := keyNames_remembers env declare rest v
      rw [hw] at hmore
      cases h
      have hfinal := (hgrows.names.trans hmore.names).trans hext
      rw [List.map_cons, hfinal.kept _ _ hlookup, ← ih hw]
      rfl
    cases declare with
    | false => exact hrest (.refl _) h
    | true =>
      obtain ⟨_, w, hw, h⟩ := exists_of_bind h
      have hgrows := declareKey_remembers env key name u
      rw [hw] at hgrows
      exact hrest hgrows h

/-! ### What is remembered after a visit -/

/-- The mode makes no difference to a list or a transition. -/
theorem expr_mode (wf : env.program.WellFormed) (he : env.At id e)
    (hmarks : e.Marks) (mode mode' : Mode) : expr id mode env = expr id mode' env := by
  rw [expr_eq_nodeText wf he, expr_eq_nodeText wf he]
  unfold nodeText
  rcases hmarks with ⟨items, hnode⟩ | ⟨keys, arms, hnode⟩ <;> rw [hnode]

/-- What lowering a list or a transition remembers is a matter of what was remembered before. -/
theorem memory_expr (wf : env.program.WellFormed) (he : env.At id e)
    (hmarks : e.Marks) (mode mode' : Mode) (m : Memory) (emission emission' : Emission) :
    (expr id mode env ⟨m, emission⟩).2.memory = (expr id mode' env ⟨m, emission'⟩).2.memory := by
  rw [expr_mode wf he hmarks mode mode']
  have hend := expr_twins (parallel_memory env.program) id mode' ⟨m, emission⟩ ⟨m, emission'⟩ rfl
  generalize expr id mode' env ⟨m, emission⟩ = x, expr id mode' env ⟨m, emission'⟩ = y at hend ⊢
  cases hend with
  | ok _ h => exact h
  | error _ h => exact h

end Lower

/-- Nothing that a list or a transition was given where it was visited is forgotten. -/
theorem Task.Visits.remembers {t : Task} {s : Session} {p : Program} {block : Option BlockId}
    {id : ExprId} {m : Memory} {e : Expr} (wf : p.WellFormed) (he : p.At id e)
    (hmarks : e.Marks) (h : t.Visits s p block id m) (mode : Mode) (emission : Emission) :
    (Lower.expr id mode (s.env p block) ⟨m, emission⟩).2.memory.Grows
      (t.lower s p block).2.memory := by
  refine h.holds_after wf (fun _ _ hab h => h.trans hab) fun mode' emission' => ?_
  rw [Lower.memory_expr (wf : (s.scope p).program.WellFormed) he hmarks mode mode' m _ emission']
  exact .refl _

/-! ### Sessions -/

namespace Session

variable {p : Program} {s : Session} {calls : List (Task × Option BlockId)} {id : ExprId} {e : Expr}

/-- The list has one text, and the code of its buffer is put out at its first visit only. -/
def AssembledOnce (p : Program) (s : Session) (calls : List (Task × Option BlockId))
    (id : ExprId) : Prop :=
  ∃ name text code, p.assembly id name = some code ∧
    ∀ (v : Visit p s calls id) (mode : Mode) (emission : Emission), ∃ m,
      (v.IsFirst → Lower.expr id mode v.env ⟨v.memory, emission⟩ =
        (.ok text, ⟨m, emission.prepend code⟩)) ∧
      (¬v.IsFirst → Lower.expr id mode v.env ⟨v.memory, emission⟩ = (.ok text, ⟨m, emission⟩))

/-- The keys have one name each, and their variables are declared at the first visit only. -/
def DeclaredOnce (p : Program) (s : Session) (calls : List (Task × Option BlockId)) (id : ExprId)
    (keys : List ExprId) (arms : List SelectArm) : Prop :=
  ∃ names, ∀ (v : Visit p s calls id) (mode : Mode) (emission : Emission),
    (v.IsFirst → ∃ marked, marked = ⟨{ v.memory with generated := id :: v.memory.generated },
        emission⟩ ∧
      Lower.expr id mode v.env ⟨v.memory, emission⟩ =
        (Lower.keyNames Lower.expr true keys >>= Lower.branches keys arms) v.env marked ∧
      ∀ found t, Lower.keyNames Lower.expr true keys v.env marked = (.ok found, t) →
        found = names) ∧
    (¬v.IsFirst → ∃ m,
      Lower.keyNames Lower.expr false keys v.env ⟨v.memory, emission⟩ =
        (.ok names, ⟨m, emission⟩) ∧
      Lower.expr id mode v.env ⟨v.memory, emission⟩ =
        Lower.branches keys arms names v.env ⟨m, emission⟩)

/-- The expression is unmarked up to its first visit and marked from then on. -/
structure MarkedOnce (p : Program) (s : Session) (calls : List (Task × Option BlockId))
    (id : ExprId) : Prop where
  first : Nonempty (Visit p s calls id) →
    ∃ v : Visit p s calls id, v.IsFirst ∧ ∀ w : Visit p s calls id, w.IsFirst → w = v
  unmarked_iff : ∀ v : Visit p s calls id, v.memory.isGenerated id = false ↔ v.IsFirst
  marked_iff : (s.after p calls).isGenerated id = true ↔ Nonempty (Visit p s calls id)

section

variable (wf : p.WellFormed) (he : p.At id e)

include wf he

/-- What a list or a transition is given where it is visited is still known in the end. -/
theorem Visit.remembers (hmarks : e.Marks) (v : Visit p s calls id) (mode : Mode)
    (emission : Emission) :
    (Lower.expr id mode v.env ⟨v.memory, emission⟩).2.memory.Grows (s.after p calls).memory :=
  (v.visits.remembers wf he hmarks mode emission).trans v.grows

theorem assembledOnce {items : List ExprId} (hnode : e.node = .list items)
    (hs : id ∉ s.memory.generated) : AssembledOnce p s calls id := by
  have hmarks : e.Marks := .inl ⟨items, hnode⟩
  let name := ((s.after p calls).names.memo.lookup ("buffer", id.text)).getD ""
  refine ⟨name, Lower.bufferValue name, _, Lower.assembly_eq wf he hnode name,
    fun v mode emission => ?_⟩
  obtain ⟨m, hnames, hrun⟩ := Lower.exists_expr_list v.env wf he hnode v.memory mode emission
  -- the name at the visit is the one that is known in the end
  have hname : (v.memory.names.named "buffer" id.text).1 = name := by
    have hgrows := v.remembers wf he hmarks mode emission
    rw [hrun] at hgrows
    have hlookup := v.memory.names.lookup_named "buffer" id.text
    rw [← hnames] at hlookup
    exact (congrArg (Option.getD · "") (hgrows.names.kept _ _ hlookup)).symm
  rw [hname] at hrun
  have hfirst := v.not_mem_generated_iff wf he hmarks hs
  refine ⟨m, fun h => ?_, fun h => ?_⟩
  · rw [hrun, if_neg (hfirst.2 h)]
    rfl
  · rw [hrun, if_pos (Classical.not_not.1 fun hgen => h (hfirst.1 hgen))]

theorem declaredOnce {keys : List ExprId} {arms : List SelectArm}
    (hnode : e.node = .select keys arms) (hs : id ∉ s.memory.generated) :
    DeclaredOnce p s calls id keys arms := by
  have hmarks : e.Marks := .inr ⟨keys, arms, hnode⟩
  let known := fun key : ExprId =>
    ((s.after p calls).names.memo.lookup ("value", key.text)).getD ""
  refine ⟨keys.map known, fun v mode emission => ?_⟩
  have hfirst := v.not_mem_generated_iff wf he hmarks hs
  have hgrows := v.remembers wf he hmarks mode emission
  -- what the keys are called at the visit is known in the end
  have hnames : ∀ {declare u found t},
      Lower.expr id mode v.env ⟨v.memory, emission⟩ =
        (Lower.keyNames Lower.expr declare keys >>= Lower.branches keys arms) v.env u →
      Lower.keyNames Lower.expr declare keys v.env u = (.ok found, t) → found = keys.map known := by
    intro declare u found t hexpr hkeys
    rw [hexpr, Lower.run_bind, hkeys] at hgrows
    have hbranches := Lower.branches_remembers v.env keys arms found t
    exact Lower.keyNames_eq_lookup hkeys (hbranches.trans hgrows).names
  constructor
  · intro h
    have hexpr := Lower.expr_select_of_not_mem v.env wf he hnode
      (hfirst.2 h) mode emission
    exact ⟨_, rfl, hexpr, fun _ _ => hnames hexpr⟩
  · intro h
    have hexpr := Lower.expr_select_of_mem v.env wf he hnode
      (Classical.not_not.1 fun hgen => h (hfirst.1 hgen)) mode emission
    obtain ⟨names, m, hkeys⟩ := Lower.exists_keyNames_undeclared v.env keys v.memory emission
    obtain rfl := hnames hexpr hkeys
    refine ⟨m, hkeys, ?_⟩
    rw [hexpr, Lower.run_bind, hkeys]

theorem markedOnce (hmarks : e.Marks) (hs : id ∉ s.memory.generated) :
    MarkedOnce p s calls id where
  first := by
    rintro ⟨u⟩
    obtain ⟨v, hv⟩ := u.exists_isFirst wf
    exact ⟨v, hv, fun w hw => hw.eq hv⟩
  unmarked_iff v := by
    rw [← v.not_mem_generated_iff wf he hmarks hs, ← Bool.not_eq_true]
    exact not_congr List.contains_iff_mem
  marked_iff := by
    have hafter := mem_generated_after_iff wf he hmarks s calls
    rw [or_iff_right hs] at hafter
    exact List.contains_iff_mem.trans hafter

end

/-- In the calls of a new session, the buffer of a list is assembled once, at the first visit, and
the list has the same text at every visit. The variables of a transition's keys are declared once,
at the first visit, and have the same names at every visit. Lists and transitions are marked as
written from their first visit on. -/
theorem written_once (p : Program) (hv : p.validate = .ok ()) (config : Config)
    (calls : List (Task × Option BlockId)) (id : ExprId) (e : Expr) (he : p.expr id = .ok e) :
    (∀ items, e.node = .list items → AssembledOnce p (start config) calls id) ∧
    (∀ keys arms, e.node = .select keys arms →
      DeclaredOnce p (start config) calls id keys arms) ∧
    (e.Marks → MarkedOnce p (start config) calls id) := by
  have wf := Program.WellFormed.of_validate hv
  have hs : id ∉ (start config).memory.generated := List.not_mem_nil
  exact ⟨fun _ hnode => assembledOnce wf he hnode hs, fun _ _ hnode => declaredOnce wf he hnode hs,
    fun hmarks => markedOnce wf he hmarks hs⟩

/-- A field is logged in a list, with what a function gives that is not declared, and decides where
the parser goes on. -/
def logAndBranch : Program where
  exprs := #[.packet, .packetHeader, .packetField 2 (.bits 8 false) "f" 0, .list 3 [⟨2⟩],
    .declared 4 .void "log" 0, .free 5 .void "missing", .called 6 5 [⟨2⟩], .called 7 4 [⟨3⟩, ⟨6⟩],
    .number 8 8 1, ⟨⟨9⟩, .void, .select [⟨2⟩] [⟨⟨8⟩, "next"⟩]⟩]
  decls := #[⟨"log",
    .function ⟨"log", [], [⟨"data", .into, .bool⟩, ⟨"more", .into, .bool⟩], .void⟩⟩]
  typeDecls := #[⟨"t", .header [⟨"f", .bits 8 false⟩]⟩]
  headers := #[⟨"h", ⟨0⟩, false⟩]

/-- The first call fails after it has come to the list, which is then lowered by itself. -/
def logCalls : List (Task × Option BlockId) :=
  [(.stmt (.call ⟨7⟩), none), (.expr ⟨3⟩ .handle, none)]

def branchCalls : List (Task × Option BlockId) :=
  [(.expr ⟨9⟩ .value, none), (.expr ⟨9⟩ .handle, none)]

/-- The list and the transition are each visited twice, and only once for the first time. -/
theorem logAndBranch_once : logAndBranch.validate = .ok () ∧
    (∃ v w : Visit logAndBranch (start .standard) logCalls ⟨3⟩, v.IsFirst ∧ ¬w.IsFirst) ∧
    AssembledOnce logAndBranch (start .standard) logCalls ⟨3⟩ ∧
    (∃ v w : Visit logAndBranch (start .standard) branchCalls ⟨9⟩, v.IsFirst ∧ ¬w.IsFirst) ∧
    DeclaredOnce logAndBranch (start .standard) branchCalls ⟨9⟩ [⟨2⟩] [⟨⟨8⟩, "next"⟩] := by
  obtain ⟨hlist, -, hmarked⟩ :=
    written_once logAndBranch rfl .standard logCalls ⟨3⟩ ⟨⟨3⟩, .void, .list [⟨2⟩]⟩ rfl
  obtain ⟨-, hselect, hmarked'⟩ := written_once logAndBranch rfl .standard branchCalls ⟨9⟩
    ⟨⟨9⟩, .void, .select [⟨2⟩] [⟨⟨8⟩, "next"⟩]⟩ rfl
  have hlist' := (hmarked (.inl ⟨_, rfl⟩)).unmarked_iff
  have hselect' := (hmarked' (.inr ⟨_, _, rfl⟩)).unmarked_iff
  have wf : logAndBranch.WellFormed := .of_validate rfl
  refine ⟨rfl, ?_, hlist _ rfl, ?_, hselect _ _ rfl⟩
  · let v : Visit logAndBranch (start .standard) logCalls ⟨3⟩ :=
      ⟨[], _, _, _, rfl, .empty, _, rfl⟩
    let w : Visit logAndBranch (start .standard) logCalls ⟨3⟩ :=
      ⟨logCalls.take 1, _, _, _, rfl, _, Task.visits_expr wf _ _ _ _⟩
    refine ⟨v, w, (hlist' v).1 rfl, fun h => h.unvisited.elim ?_⟩
    exact ⟨[], _, _, _, rfl, .empty, _, rfl⟩
  · let v : Visit logAndBranch (start .standard) branchCalls ⟨9⟩ :=
      ⟨[], _, _, _, rfl, _, Task.visits_expr wf _ _ _ _⟩
    let w : Visit logAndBranch (start .standard) branchCalls ⟨9⟩ :=
      ⟨branchCalls.take 1, _, _, _, rfl, _, Task.visits_expr wf _ _ _ _⟩
    refine ⟨v, w, (hselect' v).1 rfl, fun h => h.unvisited.elim ?_⟩
    exact ⟨[], _, _, _, rfl, _, Task.visits_expr wf _ _ _ _⟩

end Session

end PacketC
