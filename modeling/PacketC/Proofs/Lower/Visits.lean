import PacketC.Proofs.Lower.Failure

/-! The visits of a call: the points where an expression is to be lowered, told apart by the memory
at that point. A call has a visit if it ends there when lowering is made to halt at it. From runs
that halt come the facts about a list or a transition that its visits are told apart by: the first
one marks it, and nothing else does. -/

namespace PacketC

namespace Task

open Lower (haltAt wherever whereWith trap trapAt trapAt_eq_haltAt)

variable {s : Session} {p : Program} {block : Option BlockId} {t : Task} {id : ExprId} {m : Memory}

/-- The call comes to lower `id` with the memory `m`. -/
def Visits (s : Session) (p : Program) (block : Option BlockId) (t : Task) (id : ExprId)
    (m : Memory) : Prop :=
  ∃ s', t.action (haltAt (whereWith id m)) (s.env p block) s.initial = (.error trap, s')

/-- A call for an expression comes to it at once. -/
theorem visits_expr (wf : p.WellFormed) (s : Session) (block : Option BlockId) (id : ExprId)
    (mode : Mode) : (Task.expr id mode).Visits s p block id s.memory :=
  ⟨_, Lower.haltAt_of_stop (wf : (s.scope p).program.WellFormed)
    (Lower.whereWith_iff.2 ⟨rfl, rfl⟩)⟩

theorem Visits.exists_state (wf : p.WellFormed) (h : t.Visits s p block id m) :
    ∃ emission, t.action (haltAt (whereWith id m)) (s.env p block) s.initial =
      (.error trap, ⟨m, emission⟩) := by
  obtain ⟨s', h⟩ := h
  have hmem : s'.memory = m := Lower.action_halts (P := (· = m)) (s.env p block) wf
    (fun _ _ h => (Lower.whereWith_iff.1 h).2) t h
  exact ⟨s'.emission, hmem ▸ h⟩

/-- The memory of a visit is what the call has made of the session's. -/
theorem Visits.grows (wf : p.WellFormed) (h : t.Visits s p block id m) : s.memory.Grows m := by
  obtain ⟨emission, h⟩ := h.exists_state wf
  have hgrows := Lower.action_haltAt_upkeep (s.env p block) wf (whereWith id m)
    (Lower.upkeep_grows p fun _ => True) (fun _ _ _ => trivial) t s.initial
  rw [h] at hgrows
  exact hgrows

/-- What a call meets first, it visits. -/
theorem Meets.visits (wf : p.WellFormed) (h : t.Meets s p block id m) :
    t.Visits s p block id m := by
  obtain ⟨emission, h⟩ := h
  have hfollows := Lower.action_trapAt_follows (Φ := fun a _ _ => a ≠ m) (s.env p block) wf id m
    (fun _ _ _ _ _ h => h) ?_ t s.initial
  · rw [h] at hfollows
    rcases hfollows with heq | ⟨s', hs', hne⟩
    · exact ⟨_, heq.symm⟩
    · cases hs'
      exact (hne rfl).elim
  · intro mode u hno heq
    rw [Lower.whereWith_iff.2 ⟨rfl, heq⟩] at hno
    exact Bool.noConfusion hno

theorem Meets.memory_eq {m' : Memory} (h : t.Meets s p block id m) (h' : t.Meets s p block id m') :
    m = m' := by
  obtain ⟨emission, h⟩ := h
  obtain ⟨emission', h'⟩ := h'
  rw [h] at h'
  cases h'
  rfl

/-- Where an expression is met first, the call has not marked it yet. -/
theorem Meets.mem_generated (wf : p.WellFormed) (h : t.Meets s p block id m)
    (hgen : id ∈ m.generated) : id ∈ s.memory.generated := by
  obtain ⟨emission, h⟩ := h
  have hkeep := Lower.action_haltAt_upkeep (s.env p block) wf (wherever id)
    (Lower.upkeep_unmarked p id) (fun j _ hj => of_decide_eq_false hj) t s.initial
  rw [← trapAt_eq_haltAt, h] at hkeep
  exact hkeep hgen

theorem Visits.exists_meets (wf : p.WellFormed) (h : t.Visits s p block id m) :
    ∃ m', t.Meets s p block id m' := by
  obtain ⟨s', h⟩ := h
  have hfollows := Lower.action_trapAt_follows (Φ := fun _ _ _ => True) (s.env p block) wf id
    m (fun _ _ _ _ _ h => h) (fun _ _ _ => trivial) t s.initial
  rcases hfollows with heq | ⟨u, hu, _⟩
  · exact ⟨_, _, heq.trans h⟩
  · exact ⟨_, _, hu⟩

variable {e : Expr}

/-- A list or a transition that is visited before it is marked is met there first. -/
theorem Visits.meets (wf : p.WellFormed) (he : p.At id e) (hmarks : e.Marks)
    (h : t.Visits s p block id m) (hgen : id ∉ m.generated) : t.Meets s p block id m := by
  obtain ⟨emission, h⟩ := h.exists_state wf
  have hfollows := Lower.action_trapAt_follows (Φ := fun _ _ b => id ∈ b.generated)
    (s.env p block) wf id m (fun _ _ _ _ hab h => hab.generated h)
    (fun mode u hno => Lower.haltAt_marks wf he hmarks mode hno) t s.initial
  rw [h] at hfollows
  rcases hfollows with heq | ⟨u, hu, hmarked⟩
  · exact ⟨emission, heq⟩
  · exact (hgen hmarked).elim

/-! ### Marks -/

theorem generated_lower (t : Task) (s : Session) (p : Program) (block : Option BlockId) :
    (t.lower s p block).2.memory.generated =
      (t.action Lower.expr (s.env p block) s.initial).2.memory.generated := by
  obtain ⟨ds, h⟩ := t.exists_lower_snd s p block
  rw [h]
  rfl

/-- What is to hold after lowering `id`, and stays when memory grows, holds after a call that visits
it. -/
theorem Visits.holds_after (wf : p.WellFormed) (h : t.Visits s p block id m) {P : Memory → Prop}
    (hP : ∀ a b, a.Grows b → P a → P b)
    (hexpr : ∀ mode emission, P (Lower.expr id mode (s.env p block) ⟨m, emission⟩).2.memory) :
    P (t.lower s p block).2.memory := by
  obtain ⟨s', h⟩ := h
  have hfollows := Lower.action_expr_follows (Φ := fun _ _ b => P b) (s.env p block) wf
    (whereWith id m) (fun _ _ => hP) ?_ t s.initial
  · rcases hfollows with heq | ⟨u, hu, hafter⟩
    · exact (Lower.action_ne_trap (s.env p block) wf t _ _ (heq.symm.trans h)).elim
    · obtain ⟨ds, hlower⟩ := t.exists_lower_snd s p block
      rw [hlower]
      exact hP _ _ (.note ds _) hafter
  · intro j mode u hj
    obtain ⟨rfl, rfl⟩ := Lower.whereWith_iff.1 hj
    exact hexpr mode u.emission

/-- A call that does not come to an expression does not mark it. -/
theorem mem_generated_of_lower (wf : p.WellFormed) (h : ∀ m, ¬t.Visits s p block id m)
    (hafter : id ∈ (t.lower s p block).2.memory.generated) : id ∈ s.memory.generated := by
  -- a trap at the expression makes no difference to the call
  have hfollows := Lower.action_expr_follows (Φ := fun _ _ _ => True) (s.env p block) wf
    (wherever id) (fun _ _ _ _ _ h => h) (fun _ _ _ _ => trivial) t s.initial
  rw [generated_lower] at hafter
  rcases hfollows with heq | ⟨u, hu, _⟩
  · have hkeep := Lower.action_haltAt_upkeep (s.env p block) wf (wherever id)
      (Lower.upkeep_unmarked p id) (fun j _ hj => of_decide_eq_false hj) t s.initial
    rw [heq] at hkeep
    exact hkeep hafter
  · have hmeets : t.Meets s p block id u.memory := ⟨u.emission, trapAt_eq_haltAt id ▸ hu⟩
    exact (h _ (hmeets.visits wf)).elim

/-- Lists and transitions are marked by the calls that visit them, and by no others. -/
theorem mem_generated_lower_iff (wf : p.WellFormed) (he : p.At id e) (hmarks : e.Marks) :
    id ∈ (t.lower s p block).2.memory.generated ↔
      id ∈ s.memory.generated ∨ ∃ m, t.Visits s p block id m := by
  constructor
  · intro hafter
    by_cases hvisits : ∃ m, t.Visits s p block id m
    · exact .inr hvisits
    · exact .inl (mem_generated_of_lower wf (not_exists.1 hvisits) hafter)
  · rintro (hbefore | ⟨m, hvisit⟩)
    · exact (t.memory_grows s p block).generated hbefore
    · refine hvisit.holds_after wf (P := (id ∈ ·.generated)) (fun _ _ hab h => hab.generated h) ?_
      intro mode emission
      rw [← Lower.haltAt_never (wf : (s.scope p).program.WellFormed)]
      exact Lower.haltAt_marks wf he hmarks mode rfl

end Task

end PacketC
