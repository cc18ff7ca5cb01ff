import PacketC.Proofs.Lower.Upkeep

/-! Memory only grows. Whatever an action of the generator does and wherever it stops, the names
that were handed out, the expressions that were written and the diagnostics so far are all still
there. So a call can be tried again after it failed, and the reason why it failed is the last thing
that the session was told. -/

namespace PacketC

/-! ### Memory that grows -/

structure Memory.Grows (before after : Memory) : Prop where
  names : before.names.Extends after.names
  generated : before.generated ⊆ after.generated
  diagnostics : before.diagnostics <+: after.diagnostics

namespace Memory.Grows

variable {a b c : Memory}

theorem refl (m : Memory) : m.Grows m := ⟨.refl _, List.Subset.refl _, List.prefix_refl _⟩

theorem trans (h : a.Grows b) (k : b.Grows c) : a.Grows c :=
  ⟨h.names.trans k.names, List.Subset.trans h.generated k.generated,
    h.diagnostics.trans k.diagnostics⟩

theorem note (ds : List Diagnostic) (m : Memory) : m.Grows (m.note ds) :=
  ⟨.refl _, List.Subset.refl _, List.prefix_append _ _⟩

theorem of_names {names : NameSupply} {m : Memory} (h : m.names.Extends names) :
    m.Grows { m with names := names } := ⟨h, List.Subset.refl _, List.prefix_refl _⟩

theorem mark (id : ExprId) (m : Memory) : m.Grows { m with generated := id :: m.generated } :=
  ⟨.refl _, List.subset_cons_self _ _, List.prefix_refl _⟩

end Memory.Grows

/-! ### Lowering -/

namespace Lower

theorem upkeep_grows (p : Program) (marks : ExprId → Prop) : Upkeep p marks Memory.Grows where
  refl := .refl
  trans := .trans
  note := .note
  fresh _ _ := .of_names (.fresh _ _)
  named _ _ _ := .of_names (.named _ _ _)
  mark _ := .mark _

theorem expr_remembers {env : Env} (id : ExprId) (mode : Mode) (s : State) :
    s.memory.Grows (expr id mode env s).2.memory :=
  expr_upkeep (upkeep_grows _ _) id mode s

/-- Whatever runs in step with lowering itself makes memory grow. -/
theorem InStep.remembers {α : Type} {env : Env} {L : Licence} {r : Recur} {x y : LowerM α}
    (h : InStep env env L Lower.expr r x y) (s : State) : s.memory.Grows (x env s).2.memory :=
  h.upkeep (upkeep_grows _ _) (fun id _ mode s => expr_remembers id mode s) s

/-- Whether a task succeeds or fails, memory only grows. -/
theorem action_remembers {env : Env} (t : Task) (s : State) :
    s.memory.Grows (t.action expr env s).2.memory := action_upkeep (upkeep_grows _ _) t s

end Lower

/-! ### Sessions -/

/-- The settings are the same, and nothing that the session knew is lost. -/
structure Session.Grows (before after : Session) : Prop where
  config : after.config = before.config
  aliases : after.aliases = before.aliases
  used : ∀ name, before.names.isUsed name = true → after.names.isUsed name = true
  memo : ∀ hint id name, before.names.memo.lookup (hint, id) = some name →
    after.names.memo.lookup (hint, id) = some name
  generated : ∀ id, before.isGenerated id = true → after.isGenerated id = true
  diagnostics : before.diagnostics <+: after.diagnostics

theorem Session.grows_of_memory {s : Session} {m : Memory} (h : s.memory.Grows m) :
    s.Grows { s with memory := m } where
  config := rfl
  aliases := rfl
  used name hname := List.contains_iff_mem.2 (h.names.used name (List.contains_iff_mem.1 hname))
  memo hint id := h.names.kept (hint, id)
  generated _ hid := List.contains_iff_mem.2 (h.generated (List.contains_iff_mem.1 hid))
  diagnostics := h.diagnostics

namespace Task

theorem memory_grows (t : Task) (s : Session) (p : Program) (block : Option BlockId) :
    s.memory.Grows (t.lower s p block).2.memory := by
  obtain ⟨ds, h⟩ := t.exists_lower_snd s p block
  rw [h]
  exact (Lower.action_remembers t s.initial).trans (.note ds _)

/-- A call takes nothing away from the session, whether it succeeds or fails, and a call that fails
ends with a diagnostic of its error. -/
theorem lower_only_adds (t : Task) (s : Session) (p : Program) (block : Option BlockId) :
    s.Grows (t.lower s p block).2 ∧
    ∀ e, (t.lower s p block).1 = .error e → ∃ others,
      (t.lower s p block).2.diagnostics =
        s.diagnostics ++ others ++ [⟨.error, e.category, t.stage, e.message⟩] := by
  let env : Lower.Env := s.env p block
  have hgrows : s.memory.Grows (t.action Lower.expr env s.initial).2.memory :=
    Lower.action_remembers t s.initial
  constructor
  · obtain ⟨ds, h⟩ := t.exists_lower_snd s p block
    rw [h]
    exact Session.grows_of_memory (hgrows.trans (.note ds _))
  · rw [lower_eq]
    rcases hrun : t.action Lower.expr env s.initial with ⟨err | text, state⟩
    · rw [hrun] at hgrows
      rw [Session.run_of_error hrun]
      rintro e ⟨⟩
      obtain ⟨others, hothers⟩ := hgrows.diagnostics
      exact ⟨others, congrArg (· ++ _) hothers.symm⟩
    · rw [Session.run_of_ok hrun]
      exact nofun

/-- A sum of what is read from a list and of a call that has no declaration. -/
def brokenSum : Program where
  exprs := #[.free 0 (.bits 8 false) "v", ⟨⟨1⟩, .bits 8 false, .list [⟨0⟩]⟩, .free 2 .void "f",
    ⟨⟨3⟩, .bits 8 false, .call ⟨⟨2⟩, [], [⟨0⟩]⟩⟩, .binary 4 (.bits 8 false) .add 1 3]

/-- The list has a name and its warning is recorded when the call fails after an earlier failure. -/
theorem brokenSum_adds : ∃ s s',
    s = (lower (.start .standard) brokenSum none (.expr ⟨3⟩ .value)).2 ∧
    s' = (lower s brokenSum none (.stmt (.assign ⟨0⟩ ⟨4⟩))).2 ∧ s.Grows s' ∧
    s'.names.used = ["buffer_1"] ∧ s'.isGenerated ⟨1⟩ = true ∧
    ∃ others, s'.diagnostics = s.diagnostics ++ others ++ [⟨.error, .unresolvedExternal,
      "lowering statement", "Unresolved extern: no declaration for function f"⟩] := by
  refine ⟨_, _, rfl, rfl, (lower_only_adds _ _ _ _).1, rfl, rfl, ?_⟩
  exact (lower_only_adds (.stmt (.assign ⟨0⟩ ⟨4⟩)) _ brokenSum none).2
    (.unresolvedExternal "no declaration for function f") rfl

end Task

end PacketC
