import PacketC.Proofs.Lists.Assembly
import PacketC.Proofs.Lists.Counts
import PacketC.Proofs.Lower.Task

/-! What the code of a list's buffer is made of: its size, and a copy for each run of neighbouring
fields. A copy begins behind the bits of the runs before it, both rounded up to bytes. -/

namespace PacketC

/-- A sum over references can be taken run by run. -/
theorem FieldSpan.IsMaximal.sum_map {refs : List FieldRef} {runs : List FieldSpan}
    (h : IsMaximal refs runs) (f : FieldRef → Nat) :
    (refs.map f).sum = (runs.map fun run => (run.refs.map f).sum).sum := by
  rw [← h.flatMap_refs, List.flatMap_def, List.map_flatten, List.sum_flatten, List.map_map,
    List.map_map]
  rfl

/-- The line that copies a run into the buffer, from its first field on. -/
def copyText (buffer offset source length : String) : String :=
  s!"memcpy({buffer} + {offset}, field_desc(pd, {source}).byte_addr, {length});"

/-- The code that declares a buffer and fills it. -/
def assemblyText (buffer size : String) (copies : List String) : String :=
  Text.unlines (s!"int {buffer}_size = {size};" :: s!"uint8_t {buffer}[{buffer}_size];" :: copies)

structure Copy where
  offset : BitCount
  source : String
  width : BitCount

def Copy.text (buffer : String) (c : Copy) : String :=
  copyText buffer c.offset.bytes c.source c.width.bytes

namespace Program

variable (p : Program)

/-! ### Fields and their bits -/

/-- The field that is referred to, which is there if the program is well formed. -/
def fieldOf (ref : FieldRef) : Field := (p.field ref).toOption.getD ⟨"", .void⟩

/-- The name of the field's instance. -/
def fieldName (ref : FieldRef) : String :=
  Target.fieldInstance ((p.header ref.header).toOption.elim "" HeaderInstance.name)
    (p.fieldOf ref).name

def fieldBits (ref : FieldRef) : BitCount := .ofField (p.fieldName ref) (p.fieldOf ref)

/-- The bits of a run. -/
def runBits (run : FieldSpan) : BitCount := .sum (run.refs.map p.fieldBits)

/-- The field that a run is copied from. -/
def runSource (run : FieldSpan) : String := run.refs.head?.elim "" p.fieldName

/-- The copies of the runs, of which the first goes behind the bits of `offset`. -/
def copies : BitCount → List FieldSpan → List Copy
  | _, [] => []
  | offset, run :: runs =>
    ⟨offset, p.runSource run, p.runBits run⟩ :: copies (offset.add (p.runBits run)) runs

/-! ### Items of a list -/

/-- The fields among the items. -/
def fieldItems (items : List ExprId) : List FieldRef :=
  items.filterMap fun item => (p.expr item).toOption.bind Expr.fieldRef?

/-- What is noted about an expression that is an item: nothing if it is a field or a constant. -/
def skipNote (e : Expr) : Option Diagnostic :=
  if e.fieldRef?.isSome || e.isConstant then none
  else some (.warning "generating list expression buffer"
    s!"Skipping not supported list element {e.node.name}")

/-- What is noted about the items. -/
def skipNotes (items : List ExprId) : List Diagnostic :=
  items.filterMap fun item => (p.expr item).toOption.bind skipNote

/-- The runs that the fields of a list are copied in. -/
def listRuns (items : List ExprId) : List FieldSpan := FieldSpan.partition (p.fieldItems items)

/-- The bits of a list's fields. -/
def listBits (items : List ExprId) : BitCount := .sum ((p.fieldItems items).map p.fieldBits)

def listCopies (items : List ExprId) : List Copy := p.copies .empty (p.listRuns items)

/-- The code that fills the buffer of a list, under the given name. -/
def listAssembly (items : List ExprId) (buffer : String) : String :=
  assemblyText buffer (p.listBits items).bytes ((p.listCopies items).map (Copy.text buffer))

variable {p}

theorem fieldItems_cons {item : ExprId} {e : Expr} (h : p.At item e)
    (rest : List ExprId) :
    p.fieldItems (item :: rest) = e.fieldRef?.toList ++ p.fieldItems rest := by
  cases href : e.fieldRef? <;> simp [fieldItems, h, Except.toOption, href]

theorem skipNotes_cons {item : ExprId} {e : Expr} (h : p.At item e)
    (rest : List ExprId) :
    p.skipNotes (item :: rest) = (skipNote e).toList ++ p.skipNotes rest := by
  cases hnote : skipNote e <;> simp [skipNotes, h, Except.toOption, hnote]

variable {ref : FieldRef}

theorem exists_item_of_mem_fieldItems {items : List ExprId} (h : ref ∈ p.fieldItems items) :
    ∃ item ∈ items, ∃ e, p.At item e ∧ e.fieldRef? = some ref := by
  obtain ⟨item, hitem, href⟩ := List.mem_filterMap.1 h
  cases he : p.expr item with
  | ok e => exact ⟨item, hitem, e, he, by rwa [he] at href⟩
  | error _ => rw [he] at href; cases href

theorem sum_runBits {refs : List FieldRef} {runs : List FieldSpan}
    (h : FieldSpan.IsMaximal refs runs) :
    BitCount.sum (runs.map p.runBits) = .sum (refs.map p.fieldBits) := by
  rw [← h.flatMap_refs, List.map_flatMap, BitCount.sum_flatMap]
  rfl

theorem fieldOf_eq {f : Field} (h : p.field ref = .ok f) : p.fieldOf ref = f := by
  rw [fieldOf, h]
  rfl

theorem fieldName_eq {i : HeaderInstance} {f : Field} (hi : p.header ref.header = .ok i)
    (hf : p.field ref = .ok f) : p.fieldName ref = Target.fieldInstance i.name f.name := by
  rw [fieldName, hi, fieldOf_eq hf]
  rfl

end Program

namespace Lower

variable {env : Env}

/-! ### Running the generator -/

theorem listFields_run {items : List ExprId}
    (hitems : ∀ i ∈ items, ∃ e, env.At i e) (s : State) :
    listFields items env s = (.ok (env.program.fieldItems items),
      s.note (env.program.skipNotes items)) := by
  induction items generalizing s with
  | nil =>
    rw [listFields, run_pure]
    simp [Program.fieldItems, Program.skipNotes, State.note_nil]
  | cons item rest ih =>
    obtain ⟨e, he⟩ := hitems item (.head rest)
    have ih := ih fun i hi => hitems i (.tail item hi)
    rw [listFields, run_bind, look_of_ok he, run_pure, Program.fieldItems_cons he,
      Program.skipNotes_cons he]
    dsimp only
    cases href : e.fieldRef? with
    | some ref =>
      dsimp only
      rw [run_bind, ih, Program.skipNote, href]
      rfl
    | none =>
      cases hconst : e.isConstant with
      | true =>
        rw [Program.skipNote, href, hconst]
        exact ih s
      | false =>
        -- the warning stands before those of the rest
        rw [← State.note_note, Program.skipNote, href, hconst]
        exact ih (s.note _)

theorem mapM_of_pure {α β : Type} {f : α → LowerM β} {g : α → β} {l : List α}
    (h : ∀ a ∈ l, f a env = (pure (g a) : LowerM β) env) :
    l.mapM f env = (pure (l.map g) : LowerM (List β)) env := by
  induction l with
  | nil => rw [List.mapM_nil]; rfl
  | cons a l ih =>
    rw [List.mapM_cons, bind_of_pure (h a (.head l)),
      bind_of_pure (ih fun b hb => h b (.tail a hb))]
    rfl

theorem runFields_run {run : FieldSpan} (hne : run.fields ≠ [])
    (hres : ∀ ref ∈ run.refs, env.program.Resolves ref) :
    runFields run env = (pure (run.refs.map fun ref =>
      (env.program.fieldName ref, env.program.fieldOf ref)) : LowerM _) env := by
  have hres : ∀ f ∈ run.fields, env.program.Resolves ⟨run.header, f⟩ := fun f hf =>
    hres _ (List.mem_map_of_mem hf)
  obtain ⟨first, hfirst⟩ := List.exists_mem_of_ne_nil _ hne
  obtain ⟨header, hheader⟩ := (hres first hfirst).exists_header
  rw [runFields, bind_of_pure (look_of_ok hheader), FieldSpan.refs, List.map_map]
  refine mapM_of_pure fun index hindex => ?_
  obtain ⟨field, hfield⟩ := (hres index hindex).exists_field
  have hname : env.program.fieldName ⟨run.header, index⟩ = _ :=
    Program.fieldName_eq hheader hfield
  rw [bind_of_pure (look_of_ok hfield), Function.comp, hname, Program.fieldOf_eq hfield]

theorem foldl_ofField (p : Program) (c : BitCount) (refs : List FieldRef) :
    (refs.map fun ref => (p.fieldName ref, p.fieldOf ref)).foldl
      (fun span f => span.add (.ofField f.1 f.2)) c = c.add (.sum (refs.map p.fieldBits)) := by
  rw [← BitCount.foldl_add, List.foldl_map, List.foldl_map]
  rfl

theorem copyRuns_run (buffer : String) (offset : BitCount) {runs : List FieldSpan}
    (hne : ∀ run ∈ runs, run.fields ≠ [])
    (hres : ∀ run ∈ runs, ∀ ref ∈ run.refs, env.program.Resolves ref) :
    copyRuns buffer offset runs env =
      (pure ((env.program.copies offset runs).map (Copy.text buffer),
        offset.add (.sum (runs.map env.program.runBits))) : LowerM _) env := by
  induction runs generalizing offset with
  | nil => simp [copyRuns, Program.copies, BitCount.sum, BitCount.add, BitCount.empty]
  | cons run rest ih =>
    have hrun := runFields_run (hne run (.head rest)) (hres run (.head rest))
    obtain ⟨ref, refs, hrefs⟩ : ∃ ref refs, run.refs = ref :: refs :=
      List.exists_cons_of_ne_nil (by simpa [FieldSpan.refs] using hne run (.head rest))
    have ih := ih (offset.add (env.program.runBits run)) (fun r hr => hne r (.tail run hr))
      fun r hr => hres r (.tail run hr)
    have hbits : env.program.runBits run =
        (env.program.fieldBits ref).add (.sum (refs.map env.program.fieldBits)) := by
      rw [Program.runBits, hrefs]
      rfl
    rw [copyRuns, bind_of_pure hrun, hrefs, List.map_cons]
    dsimp only
    rw [foldl_ofField, ← Program.fieldBits, ← hbits, bind_of_pure ih, Program.copies,
      Program.runSource, hrefs, List.map_cons, List.map_cons, BitCount.sum, ← BitCount.add_assoc]
    rfl

section List

variable {id : ExprId} {e : Expr} {items : List ExprId}

theorem exists_of_mem_items (wf : env.program.WellFormed) (he : env.At id e)
    (hnode : e.node = .list items) : ∀ i ∈ items, ∃ x, env.At i x :=
  fun i hi => exists_of_below wf he ⟨i, ⟨e, he, hnode ▸ .item hi⟩, .refl i⟩

/-- The code of a list's buffer, and what is noted while it is put together. -/
theorem bufferCode_eq (wf : env.program.WellFormed) (he : env.At id e)
    (hnode : e.node = .list items) (buffer : String) (s : State) :
    bufferCode items buffer env s = (.ok (env.program.listAssembly items buffer),
      s.note (env.program.skipNotes items)) := by
  have hmax := FieldSpan.isMaximal_partition (env.program.fieldItems items)
  have hres : ∀ run ∈ FieldSpan.partition (env.program.fieldItems items), ∀ ref ∈ run.refs,
      env.program.Resolves ref := by
    intro run hrun ref href
    obtain ⟨_, _, x, hx, hfield⟩ :=
      Program.exists_item_of_mem_fieldItems (hmax.mem_of_mem_refs hrun href)
    exact wf.resolves hx hfield
  rw [bufferCode, run_bind, listFields_run (exists_of_mem_items wf he hnode)]
  dsimp only
  rw [run_bind, copyRuns_run buffer .empty (fun run hrun => (hmax.isRun run hrun).nonempty) hres,
    run_pure, BitCount.empty_add, Program.sum_runBits hmax]
  rfl

theorem assembly_eq {p : Program} (wf : p.WellFormed) (he : p.At id e)
    (hnode : e.node = .list items) (buffer : String) :
    p.assembly id buffer = some (p.listAssembly items buffer) := by
  let env : Env := ⟨⟨p, .standard, .empty⟩, none⟩
  have wf : env.program.WellFormed := wf
  have he : env.At id e := he
  exact assembly_of_returns he hnode
    ⟨⟨.empty, .empty⟩, _, bufferCode_eq wf he hnode buffer ⟨.empty, .empty⟩⟩

/-- In a well-formed program every list can be assembled. -/
theorem exists_assembly {p : Program} (wf : p.WellFormed) (he : p.At id e)
    (hnode : e.node = .list items) (name : String) : ∃ code, p.assembly id name = some code :=
  ⟨_, assembly_eq wf he hnode name⟩

end List

end Lower

end PacketC
