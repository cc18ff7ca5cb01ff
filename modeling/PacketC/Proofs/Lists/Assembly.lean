import PacketC.Proofs.Lower.InStep

/-! The code that assembles the buffer of a list. It is a matter of the program and of the name that
the buffer is given: neither the settings of a session nor what was lowered before changes it. -/

namespace PacketC

open Lower

/-- The code that assembles the buffer of a list under the given name. -/
def Program.assembly (p : Program) (id : ExprId) (name : String) : Option String :=
  match p.expr id with
  | .ok ⟨_, _, .list items⟩ =>
    (bufferCode items name ⟨⟨p, .standard, .empty⟩, none⟩ ⟨.empty, .empty⟩).1.toOption
  | _ => none

namespace Lower

/-- The action reads the program and takes notes. What it yields is the same in the other
environment, and from any state. -/
structure ReadsOnly {α : Type} (env env' : Env) (x : LowerM α) : Prop where
  result : ∀ s s', (x env s).1 = (x env' s').1
  state : ∀ s, ∃ ds, (x env s).2 = s.note ds

theorem exists_note (s : State) : ∃ ds, s = s.note ds := ⟨[], s.note_nil.symm⟩

namespace ReadsOnly

variable {α β : Type} {env env' : Env}

theorem pure (a : α) : ReadsOnly env env' (Pure.pure a) := ⟨fun _ _ => rfl, exists_note⟩

theorem bind {x : LowerM α} {f : α → LowerM β} (hx : ReadsOnly env env' x)
    (hf : ∀ a, ReadsOnly env env' (f a)) : ReadsOnly env env' (x >>= f) where
  result s s' := by
    have hresult := hx.result s s'
    rw [run_bind, run_bind]
    rcases hs : x env s with ⟨_ | a, t⟩ <;> rcases hs' : x env' s' with ⟨_ | a', t'⟩ <;>
      rw [hs, hs'] at hresult <;> cases hresult
    · rfl
    · exact (hf a).result t t'
  state s := by
    obtain ⟨ds, hds⟩ := hx.state s
    rw [run_bind]
    rcases hs : x env s with ⟨_ | a, t⟩ <;> rw [hs] at hds <;> cases hds
    · exact ⟨ds, rfl⟩
    · obtain ⟨es, hes⟩ := (hf a).state (s.note ds)
      exact ⟨ds ++ es, hes.trans (s.note_note ds es)⟩

theorem note (ds : List Diagnostic) : ReadsOnly env env' (Lower.note ds) :=
  ⟨fun _ _ => rfl, fun _ => ⟨ds, rfl⟩⟩

variable (hp : env'.program = env.program)

include hp

theorem look (g : Program → Except ProgramError α) : ReadsOnly env env' (Lower.look g) := by
  cases h : g env.program with
  | ok a =>
    refine ⟨fun s s' => ?_, fun s => ?_⟩
    · rw [look_of_ok h, look_of_ok (hp ▸ h)]; rfl
    · rw [look_of_ok h]; exact exists_note s
  | error e =>
    refine ⟨fun s s' => ?_, fun s => ?_⟩
    · rw [look_of_error h, look_of_error (hp ▸ h)]; rfl
    · rw [look_of_error h]; exact exists_note s

omit hp in
theorem mapM {f : α → LowerM β} (h : ∀ a, ReadsOnly env env' (f a)) (l : List α) :
    ReadsOnly env env' (l.mapM f) := by
  induction l with
  | nil => rw [List.mapM_nil]; exact pure []
  | cons a l ih =>
    rw [List.mapM_cons]
    exact bind (h a) fun _ => bind ih fun _ => pure _

/-! ### The code of a buffer -/

theorem listFields (items : List ExprId) : ReadsOnly env env' (listFields items) := by
  induction items with
  | nil => exact pure []
  | cons item rest ih =>
    refine bind (look hp _) fun e => ?_
    split
    · exact bind ih fun _ => pure _
    · split
      · exact bind (note _) fun _ => ih
      · exact ih

theorem runFields (run : FieldSpan) : ReadsOnly env env' (runFields run) :=
  bind (look hp _) fun _ => mapM (fun _ => bind (look hp _) fun _ => pure _) _

theorem copyRuns (buffer : String) (offset : BitCount) (runs : List FieldSpan) :
    ReadsOnly env env' (copyRuns buffer offset runs) := by
  induction runs generalizing offset with
  | nil => exact pure _
  | cons run rest ih =>
    unfold Lower.copyRuns
    refine bind (runFields hp run) fun fields => ?_
    split
    · exact ih offset
    · exact bind (ih _) fun _ => pure _

theorem bufferCode (items : List ExprId) (buffer : String) :
    ReadsOnly env env' (bufferCode items buffer) :=
  bind (listFields hp items) fun _ => bind (copyRuns hp _ _ _) fun _ => pure _

end ReadsOnly

/-- Wherever the code of a list's buffer is put together, it is the assembly of the list. -/
theorem assembly_of_returns {env : Env} {id : ExprId} {e : Expr} {items : List ExprId}
    {name code : String} (he : env.At id e) (hnode : e.node = .list items)
    (h : Returns env (bufferCode items name) code) : env.program.assembly id name = some code := by
  obtain ⟨s, t, h⟩ := h
  obtain ⟨_, _, _⟩ := e
  cases hnode
  let neutral : Env := ⟨⟨env.program, .standard, .empty⟩, none⟩
  have hp : neutral.program = env.program := rfl
  have hreads := ReadsOnly.bufferCode hp items name
  have hcode := hreads.result s ⟨.empty, .empty⟩
  rw [h] at hcode
  simp only [Program.assembly, he]
  rw [← hcode]
  rfl

end Lower

end PacketC
