import PacketC.Proofs.Lower.Upkeep

/-! Sessions as they come about: from the start, by any calls one after the other, whether they
succeed or fail. Whatever a session was asked to do, its supply of names is in order. -/

namespace PacketC

/-- The session comes from a new one by calls. -/
inductive Session.Reachable : Session → Prop
  | start (config : Config) : Reachable (.start config)
  | lower {s : Session} (h : Reachable s) (p : Program) (block : Option BlockId) (t : Task) :
      Reachable (t.lower s p block).2
  | typeText {s : Session} (h : Reachable s) (p : Program) (ty : Ty) (form : TypeForm) :
      Reachable (s.typeText p ty form).2
  | declaredText {s : Session} (h : Reachable s) (p : Program) (ty : Ty) (name : String) :
      Reachable (s.declaredText p ty name).2
  | setAlias {s : Session} (h : Reachable s) (name text : String) :
      Reachable (s.setAlias name text).2
  | eraseAlias {s : Session} (h : Reachable s) (name : String) : Reachable (s.eraseAlias name).2
  | drain {s : Session} (h : Reachable s) : Reachable s.drain.2
  | allocate {s : Session} (h : Reachable s) (hint : String) (id : Option String) :
      Reachable (s.allocate hint id).2

/-- Whatever lowering asks of a supply of names, the supply stays in order. -/
theorem Lower.upkeep_sound (p : Program) (marks : ExprId → Prop) :
    Upkeep p marks fun m m' => m.names.Sound → m'.names.Sound where
  refl _ h := h
  trans h k := k ∘ h
  note _ _ h := h
  fresh _ _ h := h.fresh _
  named _ _ _ h := h.named _ _
  mark _ _ h := h

theorem Session.Reachable.sound {s : Session} (h : s.Reachable) : s.names.Sound := by
  induction h with
  | start config => exact .empty
  | allocate _ hint id ih => exact ih.allocate hint id
  | @lower s _ p block t ih =>
    obtain ⟨ds, hafter⟩ := t.exists_lower_snd s p block
    rw [hafter]
    exact Lower.action_upkeep (Lower.upkeep_sound _ _) t s.initial ih
  | _ => assumption

/-! ### One call after another -/

namespace Session

/-- A call of a session, with the sessions before and after it. -/
structure Step where
  before : Session
  result : Except LowerError Fragment
  after : Session

def steps (p : Program) : Session → List (Task × Option BlockId) → List Step
  | _, [] => []
  | s, (t, block) :: rest =>
    let (result, s') := t.lower s p block
    ⟨s, result, s'⟩ :: steps p s' rest

def after (p : Program) : Session → List (Task × Option BlockId) → Session
  | s, [] => s
  | s, (t, block) :: rest => after p (t.lower s p block).2 rest

theorem Reachable.after {s : Session} (h : s.Reachable) (p : Program)
    (calls : List (Task × Option BlockId)) : (s.after p calls).Reachable := by
  induction calls generalizing s with
  | nil => exact h
  | cons call rest ih => exact ih (h.lower p call.2 call.1)

end Session

end PacketC
