import Mathlib.Data.List.SplitBy
import PacketC.Lower.FieldSpan

/-! Runs of neighbouring fields. A partition of references into runs is maximal if no run can be
joined with the one behind it. There is one such partition, and `FieldSpan.partition` finds it. -/

namespace PacketC.FieldSpan

/-- The references that a run stands for. -/
def refs (run : FieldSpan) : List FieldRef := run.fields.map (FieldRef.mk run.header)

/-- There is a field, and each further one comes right after the one before it. -/
structure IsRun (run : FieldSpan) : Prop where
  nonempty : run.fields ≠ []
  consecutive : run.fields.IsChain fun f g => f.toNat + 1 = g.toNat

/-- The second run goes on in the header of the first one, right after its last field. -/
def Joins (run next : FieldSpan) : Prop :=
  run.header = next.header ∧
    ∃ f ∈ run.fields.getLast?, ∃ g ∈ next.fields.head?, f.toNat + 1 = g.toNat

/-- The runs are made of the references in their order, and none can be joined with the next. -/
structure IsMaximal (refs : List FieldRef) (runs : List FieldSpan) : Prop where
  flatMap_refs : runs.flatMap FieldSpan.refs = refs
  isRun : ∀ run ∈ runs, run.IsRun
  apart : runs.IsChain fun run next => ¬run.Joins next

variable {ls : List FieldRef} {ref : FieldRef} {run next : FieldSpan} {runs : List FieldSpan}

theorem IsRun.refs_ne_nil (h : run.IsRun) : run.refs ≠ [] := by
  simpa [FieldSpan.refs] using h.nonempty

theorem isRun_single (ref : FieldRef) : IsRun ⟨ref.header, [ref.field]⟩ :=
  ⟨List.cons_ne_nil _ _, List.isChain_singleton _⟩

theorem follows_iff : run.follows ref = true ↔ Joins ⟨ref.header, [ref.field]⟩ run := by
  rw [follows, Joins, Bool.and_eq_true, beq_iff_eq, eq_comm]
  simp [Option.any_eq_true]

/-- What comes after the last field of a run also comes after it if the run starts earlier. -/
theorem joins_cons_iff (hne : run.fields ≠ []) (f : UInt64) :
    Joins { run with fields := f :: run.fields } next ↔ run.Joins next := by
  obtain ⟨g, fields, hfields⟩ := List.exists_cons_of_ne_nil hne
  simp [Joins, hfields, List.getLast?_cons_cons]

/-! ### The partition is maximal -/

theorem IsMaximal.nil : IsMaximal [] [] := ⟨rfl, nofun, .nil⟩

/-- A reference that the first run follows becomes the first one of the run. -/
theorem IsMaximal.extend (h : IsMaximal ls (run :: runs))
    (hjoins : Joins ⟨ref.header, [ref.field]⟩ run) :
    IsMaximal (ref :: ls) ({ run with fields := ref.field :: run.fields } :: runs) := by
  have hrun := h.isRun run (List.mem_cons_self ..)
  obtain ⟨hheader, _, ⟨⟩, g, hg, hfield⟩ := hjoins
  refine ⟨?_, List.forall_mem_cons.2 ⟨⟨List.cons_ne_nil _ _, ?_⟩, ?_⟩, ?_⟩
  · rw [← h.flatMap_refs]
    simp [FieldSpan.refs, ← hheader]
  · refine hrun.consecutive.cons fun f hf => ?_
    cases Option.mem_unique hf hg
    exact hfield
  · exact fun r hr => h.isRun r (List.mem_cons_of_mem _ hr)
  · have hapart := List.isChain_cons.1 h.apart
    exact hapart.2.cons fun r hr => mt (joins_cons_iff hrun.nonempty _).1 (hapart.1 r hr)

/-- A reference that the first run does not follow is a run of its own. -/
theorem IsMaximal.cons (h : IsMaximal ls runs)
    (hjoins : ∀ run ∈ runs.head?, ¬Joins ⟨ref.header, [ref.field]⟩ run) :
    IsMaximal (ref :: ls) (⟨ref.header, [ref.field]⟩ :: runs) where
  flatMap_refs := by
    rw [List.flatMap_cons, h.flatMap_refs]
    rfl
  isRun := List.forall_mem_cons.2 ⟨isRun_single ref, h.isRun⟩
  apart := h.apart.cons hjoins

theorem isMaximal_partition (refs : List FieldRef) : IsMaximal refs (partition refs) := by
  fun_induction partition refs with
  | case1 => exact .nil
  | case2 ref rest hrest ih =>
    rw [hrest] at ih
    exact ih.cons nofun
  | case3 ref rest run runs hrest hfollows ih =>
    rw [hrest] at ih
    exact ih.extend (follows_iff.1 hfollows)
  | case4 ref rest run runs hrest hfollows ih =>
    rw [hrest] at ih
    refine ih.cons fun r hr => ?_
    cases hr
    exact mt follows_iff.2 hfollows

theorem IsMaximal.mem_of_mem_refs (h : IsMaximal ls runs) (hrun : run ∈ runs)
    (href : ref ∈ run.refs) : ref ∈ ls := h.flatMap_refs ▸ List.mem_flatMap.2 ⟨run, hrun, href⟩

/-! ### Maximal partitions are the same -/

/-- The second reference is to the field right after that of the first one. -/
def neighbours (a b : FieldRef) : Bool := a.header == b.header && a.field.toNat + 1 == b.field.toNat

theorem IsRun.isChain_refs (h : run.IsRun) : run.refs.IsChain fun a b => neighbours a b = true := by
  refine (List.isChain_map _).2 (h.consecutive.imp fun f g hfg => ?_)
  simp [neighbours, hfg]

theorem IsRun.neighbours_eq_false (hrun : run.IsRun) (hnext : next.IsRun) (h : ¬run.Joins next) :
    neighbours (run.refs.getLast hrun.refs_ne_nil) (next.refs.head hnext.refs_ne_nil) = false := by
  rw [Bool.eq_false_iff]
  intro hneighbours
  obtain ⟨hheader, hfield⟩ := Bool.and_eq_true_iff.1 hneighbours
  refine h ⟨by simpa [FieldSpan.refs] using hheader, _,
    List.getLast_mem_getLast? hrun.nonempty, _, List.head_mem_head? hnext.nonempty, ?_⟩
  simpa [FieldSpan.refs] using hfield

/-- A maximal partition cuts the references wherever they are not neighbours. -/
theorem IsMaximal.map_refs (h : IsMaximal ls runs) :
    runs.map FieldSpan.refs = ls.splitBy neighbours := by
  rw [← h.flatMap_refs, List.flatMap_def, List.splitBy_flatten]
  · rw [List.mem_map]
    rintro ⟨run, hmem, hnil⟩
    exact (h.isRun run hmem).refs_ne_nil hnil
  · rw [List.forall_mem_map]
    exact fun run hmem => (h.isRun run hmem).isChain_refs
  · refine (List.isChain_map _).2 (h.apart.imp_of_mem_imp fun run next hrun hnext hapart => ?_)
    exact ⟨_, _, (h.isRun run hrun).neighbours_eq_false (h.isRun next hnext) hapart⟩

/-- The run that the references make up, if they are those of one. -/
def ofRefs? (refs : List FieldRef) : Option FieldSpan :=
  refs.head?.map fun ref => ⟨ref.header, refs.map FieldRef.field⟩

theorem IsRun.ofRefs?_refs (h : run.IsRun) : ofRefs? run.refs = some run := by
  obtain ⟨f, fields, hfields⟩ := List.exists_cons_of_ne_nil h.nonempty
  obtain ⟨header, _⟩ := run
  cases hfields
  simp [ofRefs?, FieldSpan.refs, Function.comp_def]

theorem IsMaximal.map_some (h : IsMaximal ls runs) :
    runs.map some = (ls.splitBy neighbours).map ofRefs? := by
  rw [← h.map_refs, List.map_map]
  exact List.map_congr_left fun run hmem => (h.isRun run hmem).ofRefs?_refs.symm

theorem IsMaximal.unique {runs' : List FieldSpan} (h : IsMaximal ls runs)
    (h' : IsMaximal ls runs') : runs = runs' :=
  List.map_injective_iff.2 (fun _ _ => Option.some.inj) (h.map_some.trans h'.map_some.symm)

/-- Neighbouring fields are taken together as far as they go, and there is no other way to do so:
the runs are those of the one maximal partition of the references. -/
theorem partition_eq_iff (refs : List FieldRef) (runs : List FieldSpan) :
    partition refs = runs ↔ IsMaximal refs runs := by
  constructor
  · rintro rfl
    exact isMaximal_partition refs
  · exact (isMaximal_partition refs).unique

/-- A gap, a field of another header, a repeated field and a step back each begin a run. -/
example : partition [⟨⟨0⟩, 1⟩, ⟨⟨0⟩, 2⟩, ⟨⟨0⟩, 4⟩, ⟨⟨1⟩, 5⟩, ⟨⟨1⟩, 5⟩, ⟨⟨1⟩, 4⟩, ⟨⟨1⟩, 5⟩] =
    [⟨⟨0⟩, [1, 2]⟩, ⟨⟨0⟩, [4]⟩, ⟨⟨1⟩, [5]⟩, ⟨⟨1⟩, [5]⟩, ⟨⟨1⟩, [4, 5]⟩] := by decide

end PacketC.FieldSpan
