import PacketC.Proofs.Lower.Visits

/-! The first visit of an expression in the calls of a session. A list or a transition is unmarked
where it is visited first and marked wherever it is visited later, so the mark tells the two
apart. -/

namespace PacketC.Session

/-- A point in the calls of a session where an expression is to be lowered. -/
structure Visit (p : Program) (s : Session) (calls : List (Task × Option BlockId)) (id : ExprId)
    where
  earlier : List (Task × Option BlockId)
  task : Task
  block : Option BlockId
  later : List (Task × Option BlockId)
  calls_eq : calls = earlier ++ (task, block) :: later
  memory : Memory
  visits : task.Visits (s.after p earlier) p block id memory

variable {p : Program} {s : Session} {calls : List (Task × Option BlockId)} {id : ExprId}

namespace Visit

/-- The session when the call is made. -/
def before (v : Visit p s calls id) : Session := s.after p v.earlier

def env (v : Visit p s calls id) : Lower.Env := ⟨v.before.scope p, v.block⟩

/-- No earlier call lowers the expression, and the call comes to it for the first time. -/
structure IsFirst (v : Visit p s calls id) : Prop where
  unvisited : IsEmpty (Visit p s v.earlier id)
  meets : v.task.Meets v.before p v.block id v.memory

/-- A visit is still one when there are more calls. -/
def within {all more : List (Task × Option BlockId)} (v : Visit p s calls id)
    (h : all = calls ++ more) : Visit p s all id where
  __ := v
  later := v.later ++ more
  calls_eq := h.trans ((congrArg (· ++ more) v.calls_eq).trans (List.append_assoc ..))

/-- A visit in later calls is one in all of them. -/
def cons (t : Task) (block : Option BlockId) (v : Visit p (t.lower s p block).2 calls id) :
    Visit p s ((t, block) :: calls) id where
  __ := v
  earlier := (t, block) :: v.earlier
  calls_eq := congrArg _ v.calls_eq
  visits := v.visits

end Visit

theorem after_grows (s : Session) (p : Program) (calls : List (Task × Option BlockId)) :
    s.memory.Grows (s.after p calls).memory := by
  induction calls generalizing s with
  | nil => exact .refl _
  | cons call rest ih => exact (call.1.memory_grows s p call.2).trans (ih _)

theorem after_append (s : Session) (p : Program) (calls more : List (Task × Option BlockId)) :
    s.after p (calls ++ more) = (s.after p calls).after p more := by
  induction calls generalizing s with
  | nil => rfl
  | cons call rest ih => exact ih _

/-- What is remembered after the call of a visit is remembered in the end. -/
theorem Visit.grows (v : Visit p s calls id) :
    (v.task.lower v.before p v.block).2.memory.Grows (s.after p calls).memory := by
  have hafter : s.after p calls = (v.task.lower v.before p v.block).2.after p v.later :=
    (congrArg (s.after p) v.calls_eq).trans (after_append ..)
  rw [hafter]
  exact after_grows _ p v.later

/-! ### Marks -/

variable {e : Expr}

/-- Of a list or a transition, the session knows whether a call has visited it. -/
theorem mem_generated_after_iff (wf : p.WellFormed) (he : p.At id e) (hmarks : e.Marks)
    (s : Session) (calls : List (Task × Option BlockId)) :
    id ∈ (s.after p calls).memory.generated ↔
      id ∈ s.memory.generated ∨ Nonempty (Visit p s calls id) := by
  induction calls generalizing s with
  | nil =>
    refine ⟨.inl, fun h => h.resolve_right ?_⟩
    rintro ⟨v⟩
    exact List.append_ne_nil_of_right_ne_nil _ (List.cons_ne_nil _ _) v.calls_eq.symm
  | cons call rest ih =>
    obtain ⟨t, block⟩ := call
    rw [after, ih, Task.mem_generated_lower_iff wf he hmarks, or_assoc]
    refine or_congr_right ⟨?_, ?_⟩
    · rintro (⟨m, hm⟩ | ⟨⟨v⟩⟩)
      · exact ⟨⟨[], t, block, rest, rfl, m, hm⟩⟩
      · exact ⟨v.cons t block⟩
    · rintro ⟨⟨earlier, task, block', later, hcalls, m, hm⟩⟩
      cases earlier with
      | nil =>
        cases hcalls
        exact .inl ⟨m, hm⟩
      | cons call earlier =>
        cases hcalls
        exact .inr ⟨⟨earlier, task, block', later, rfl, m, hm⟩⟩

namespace Visit

/-- In a session that starts with nothing marked, a list or a transition is unmarked where it is
visited first. -/
theorem not_mem_generated_iff (wf : p.WellFormed) (he : p.At id e) (hmarks : e.Marks)
    (hs : id ∉ s.memory.generated) (v : Visit p s calls id) :
    id ∉ v.memory.generated ↔ v.IsFirst := by
  have hbefore : id ∈ v.before.memory.generated ↔ Nonempty (Visit p s v.earlier id) := by
    rw [before, mem_generated_after_iff wf he hmarks, or_iff_right hs]
  constructor
  · intro hgen
    refine ⟨⟨fun w => hgen ?_⟩, v.visits.meets wf he hmarks hgen⟩
    exact (v.visits.grows wf).generated (hbefore.2 ⟨w⟩)
  · intro hfirst hgen
    obtain ⟨w⟩ := hbefore.1 (hfirst.meets.mem_generated wf hgen)
    exact hfirst.unvisited.elim w

/-- If an expression is visited at all, it has a first visit. -/
theorem exists_isFirst (wf : p.WellFormed) {calls : List (Task × Option BlockId)}
    (v : Visit p s calls id) : ∃ v : Visit p s calls id, v.IsFirst := by
  by_cases hearlier : Nonempty (Visit p s v.earlier id)
  · obtain ⟨u⟩ := hearlier
    obtain ⟨w, hw⟩ := exists_isFirst wf u
    exact ⟨w.within v.calls_eq, hw.unvisited, hw.meets⟩
  · obtain ⟨m, hm⟩ := v.visits.exists_meets wf
    exact ⟨{ v with memory := m, visits := hm.visits wf }, ⟨fun w => hearlier ⟨w⟩⟩, hm⟩
termination_by calls.length
decreasing_by
  have hlength := congrArg List.length v.calls_eq
  rw [List.length_append, List.length_cons] at hlength
  omega

/-- No visit comes before the first one. -/
theorem IsFirst.not_later {v w : Visit p s calls id} (hw : w.IsFirst)
    {between : List (Task × Option BlockId)} :
    w.earlier ≠ v.earlier ++ (v.task, v.block) :: between := by
  intro heq
  exact hw.unvisited.elim ⟨v.earlier, v.task, v.block, between, heq, v.memory, v.visits⟩

/-- There is only one first visit. -/
theorem IsFirst.eq {v w : Visit p s calls id} (hv : v.IsFirst) (hw : w.IsFirst) : v = w := by
  have hcalls := v.calls_eq.symm.trans w.calls_eq
  have hearlier : v.earlier = w.earlier := by
    rcases List.append_eq_append_iff.1 hcalls with ⟨between, hlonger, hrest⟩ |
      ⟨between, hlonger, hrest⟩
    · cases between with
      | nil => rw [hlonger, List.append_nil]
      | cons call between =>
        obtain rfl := (List.cons.inj hrest).1
        exact (hw.not_later hlonger).elim
    · cases between with
      | nil => rw [hlonger, List.append_nil]
      | cons call between =>
        obtain rfl := (List.cons.inj hrest).1
        exact (hv.not_later hlonger).elim
  obtain ⟨earlier, task, block, later, hv', m, visits⟩ := v
  obtain ⟨earlier', task', block', later', hw', m', visits'⟩ := w
  cases hearlier
  cases List.append_cancel_left hcalls
  cases hv.meets.memory_eq hw.meets
  rfl

end Visit

end PacketC.Session
