import PacketC.Proofs.Lower.Task
import PacketC.Proofs.Output.NameSupply

/-! What lowering does to the memory of a session. Whatever an action of the generator is for and
wherever it stops, it is made of a few operations on the memory, so a relation between memories that
these have is one between the memories before and after any call. -/

namespace PacketC.Lower

variable {α : Type} {env : Env} {R : Memory → Memory → Prop}

/-- The relation holds across each operation on the memory that lowering `p` consists of, as long as
nothing is marked but what `marks` allows. -/
structure Upkeep (p : Program) (marks : ExprId → Prop) (R : Memory → Memory → Prop) : Prop where
  refl : ∀ m, R m m
  trans : ∀ {a b c}, R a b → R b c → R a c
  note : ∀ ds m, R m (m.note ds)
  fresh : ∀ {hint}, Hint p hint → ∀ m, R m { m with names := (m.names.fresh hint).2 }
  named : ∀ {hint}, Hint p hint → ∀ (id : ExprId) m,
    R m { m with names := (m.names.named hint id.text).2 }
  mark : ∀ {id}, marks id → ∀ m, R m { m with generated := id :: m.generated }

theorem InStep.upkeep {L : Licence} {r₁ r₂ : Recur} {x y : LowerM α}
    (h : InStep env env L r₁ r₂ x y)
    (hR : Upkeep env.program L.marks R)
    (hr : ∀ id, L.enters id → ∀ mode s, R s.memory (r₁ id mode env s).2.memory) :
    ∀ s, R s.memory (x env s).2.memory := by
  induction h with
  | bind _ _ ihx ihf =>
    intro s
    have hx := ihx s
    rw [run_bind]
    split
    · rename_i a t ht
      rw [ht] at hx
      exact hR.trans hx (ihf a ⟨s, t, ht⟩ t)
    · rename_i e t ht
      rw [ht] at hx
      exact hx
  | note => exact fun s => hR.note _ s.memory
  | freshName h => exact fun s => hR.fresh h s.memory
  | nameOf h id => exact fun s => hR.named h id s.memory
  | firstTime h =>
    intro s
    rw [run_firstTime]
    split
    · exact hR.refl _
    · exact hR.mark h s.memory
  | framed _ _ ih =>
    intro s
    rw [run_framed]
    exact ih s.push
  | enter h mode => exact hr _ h mode
  | inEnv hx _ _ ih => intro s; rw [hx]; exact ih s
  | _ => exact fun s => hR.refl _

theorem expr_upkeep (hR : Upkeep env.program (fun _ => True) R) (id : ExprId) (mode : Mode)
    (s : State) : R s.memory (expr id mode env s).2.memory := by
  refine expr_keeps (R := fun s t => R s.memory t.memory) (fun _ => hR.refl _) ?_ id mode s
  intro recur id e h he mode
  have hstep : InStep env env .any recur recur _ _ := nodeText_any he mode
  exact hstep.upkeep hR fun id _ => h id

theorem action_any (t : Task) (r₁ r₂ : Recur) :
    InStep env env .any r₁ r₂ (t.action r₁) (t.action r₂) :=
  action_inStep (Licence.any_suits _) rfl trivial (fun h => h.strict.elim) (fun _ _ _ _ => trivial)
    fun _ _ _ _ => Licence.any_admitsCalls _

theorem action_upkeep (hR : Upkeep env.program (fun _ => True) R) (t : Task) (s : State) :
    R s.memory (t.action expr env s).2.memory :=
  (action_any t expr expr).upkeep hR (fun id _ => expr_upkeep hR id) s

end PacketC.Lower

namespace PacketC.Task

/-- What a call leaves behind, with a diagnostic if it fails. -/
theorem exists_lower_snd (t : Task) (s : Session) (p : Program) (block : Option BlockId) :
    ∃ ds, (t.lower s p block).2 = { s with memory :=
      (t.action Lower.expr (s.env p block) s.initial).2.memory.note ds } := by
  rw [lower_eq]
  rcases hrun : t.action Lower.expr (s.env p block) s.initial with ⟨_ | _, state⟩
  · rw [Session.run_of_error hrun]
    exact ⟨_, rfl⟩
  · rw [Session.run_of_ok hrun]
    exact ⟨[], by simp [Memory.note]⟩

end PacketC.Task
