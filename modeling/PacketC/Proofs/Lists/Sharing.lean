import PacketC.Proofs.Scope.Statements

/-! Where the buffer of a list can be used. Its code is written once, in the frame in which the list
is met first; it is in scope there and in all frames inside. So the parts of a statement can share a
list if the one that meets it first stands in a frame around the others. -/

namespace PacketC.Code

/-! ### Buffers in scope -/

/-- Reads one mark of a script. The stack says of each open frame, the innermost first, whether the
code of the buffer was read in it or in a frame around it. What mentions the name needs that. -/
def Mark.read (n code : String) : Mark → List Bool → Option (List Bool)
  | .opens, d :: ds => some (d :: d :: ds)
  | .closes, _ :: ds => some ds
  | .code text, d :: ds =>
    if text = code then some (true :: ds)
    else if Mentions n text → d = true then some (d :: ds) else none
  | _, [] => none

def Script.read (n code : String) (s : Script) (ds : List Bool) : Option (List Bool) :=
  s.foldlM (fun ds m => m.read n code ds) ds

theorem Script.read_append (n code : String) (a b : Script) (ds : List Bool) :
    Script.read n code (a ++ b) ds = (Script.read n code a ds).bind (Script.read n code b) :=
  List.foldlM_append ..

/-- Wherever the script mentions the name, the code stands in front of it, in the same frame or in
one around it. -/
def InScope (n code : String) (s : Script) : Prop := (s.read n code [false]).isSome = true

instance (n code : String) (s : Script) : Decidable (InScope n code s) :=
  inferInstanceAs (Decidable (_ = true))

/-- Reads on from any place where the code was read if `d` says so, to one where it was if `e` does.
Frames that are opened on the way are closed again. -/
def Backed (n code : String) (d : Bool) (s : Script) (e : Bool) : Prop :=
  ∀ b, (d = true → b = true) → ∀ ds, ∃ c, (e = true → c = true) ∧
    s.read n code (b :: ds) = some (c :: ds)

namespace Backed

variable {n code text : String} {d e f : Bool} {a b : Script}

theorem nil (d : Bool) : Backed n code d [] d := fun b hb _ => ⟨b, hb, rfl⟩

theorem append (ha : Backed n code d a e) (hb : Backed n code e b f) :
    Backed n code d (a ++ b) f := by
  intro x hx ds
  obtain ⟨y, hy, hread⟩ := ha x hx ds
  obtain ⟨z, hz, hread'⟩ := hb y hy ds
  refine ⟨z, hz, ?_⟩
  rw [Script.read_append, hread]
  exact hread'

theorem assembles (d : Bool) : Backed n code d [.code code] true := fun b _ ds =>
  ⟨true, id, by simp [Script.read, Mark.read]⟩

theorem uses (h : Covered n (d = true) text) : Backed n code d [.code text] d := by
  intro b hb ds
  by_cases htext : text = code
  · exact ⟨true, fun _ => rfl, by simp [Script.read, Mark.read, htext]⟩
  · refine ⟨b, hb, ?_⟩
    simpa [Script.read, Mark.read, htext] using fun hm => hb (h hm)

theorem clean (h : ¬ Mentions n text) : Backed n code d [.code text] d := uses fun hm => absurd hm h

/-- What is read in a frame counts there only. -/
theorem nestled (h : Backed n code d a e) : Backed n code d (nestled a) d := by
  intro b hb ds
  obtain ⟨c, _, hread⟩ := h b hb (b :: ds)
  refine ⟨b, hb, ?_⟩
  have hinner : Script.read n code (Code.nestled a) (b :: ds) =
      Script.read n code (a ++ [.closes]) (b :: b :: ds) := rfl
  rw [hinner, Script.read_append, hread]
  rfl

theorem pieces {texts : List String} (h : ∀ t ∈ texts, Covered n (d = true) t) :
    Backed n code d (pieces texts) d := by
  induction texts with
  | nil => exact nil d
  | cons t texts ih =>
    rw [List.forall_mem_cons] at h
    exact (uses h.1).append (ih h.2)

theorem flatten {parts : List Script} (h : ∀ part ∈ parts, Backed n code d part d) :
    Backed n code d parts.flatten d := by
  induction parts with
  | nil => exact nil d
  | cons part parts ih =>
    rw [List.forall_mem_cons] at h
    exact h.1.append (ih h.2)

theorem inScope (h : Backed n code false a e) : InScope n code a := by
  obtain ⟨c, _, hread⟩ := h false id []
  rw [InScope, hread]
  rfl

/-! ### Frames -/

/-- Code that is in front of the statement serves the whole frame. -/
theorem enframed_of_mem {before after post : List String} (hbefore : ∀ t ∈ before, ¬ Mentions n t)
    (hbody : Backed n code true a true) :
    Backed n code false (enframed (before ++ code :: after) a post) true := by
  have hpre : Backed n code false (Code.pieces (before ++ code :: after)) true := by
    rw [Code.pieces, List.map_append, List.map_cons]
    refine (pieces fun t ht hm => absurd hm (hbefore t ht)).append ?_
    exact (assembles false).append (pieces fun _ _ _ => rfl)
  exact (hpre.append hbody).append (pieces fun _ _ _ => rfl)

theorem enframed {pre post : List String} (hpre : ∀ t ∈ pre, Covered n (d = true) t)
    (hbody : Backed n code d a d) (hpost : ∀ t ∈ post, Covered n (d = true) t) :
    Backed n code d (enframed pre a post) d := ((pieces hpre).append hbody).append (pieces hpost)

end Backed

end PacketC.Code

/-! ### Scripts of statements -/

namespace PacketC.Lower

open Code

variable {n code : String} {d : Bool}

theorem backed_block {scope : TypeScope} (hn : Foreign scope n) {lock : Option String}
    (hlock : ∀ name ∈ lock, ¬ Mentions n name) {parts : List Script}
    (h : ∀ part ∈ parts, Backed n code d part d) :
    Backed n code d (blockScript scope.config lock parts) d := by
  have hparts := Backed.flatten h
  cases lock with
  | none => exact hparts
  | some name =>
    have hname := hlock name rfl
    refine ((Backed.clean ?_).append hparts).append (.clean ?_)
    · exact ((closed_covered (C := False) hn.numbered).start hn.lock rfl).close hname rfl
    · exact ((closed_covered (C := False) hn.numbered).start hn.unlock rfl).close hname rfl

theorem backed_cond (hn : Numbered n) {c : String} (hc : Covered n (d = true) c) {t f : Script}
    (ht : Backed n code d t d) (hf : Backed n code d f d) :
    Backed n code d (condScript c t f) d := by
  have hcond : Covered n (d = true) s!"if( {c} ) \x7b" := (Joint.ofList hn rfl).close hc rfl
  have helse : Backed n code d [.code "\x7d else \x7b"] d := .clean (hn.not_mentions (by decide))
  have hend : Backed n code d [.code "\x7d"] d := .clean (hn.not_mentions (by decide))
  exact (((Backed.uses hcond).append ht).append (helse.append hf)).append hend

/-- The label and the body of an arm are in order. -/
structure ArmScript.Backed (n code : String) (d : Bool) (a : ArmScript) : Prop where
  label : ∀ text ∈ a.arm.label, Covered n (d = true) text
  body : Code.Backed n code d a.body d

theorem backed_arm (hn : Numbered n) {a : ArmScript} (h : a.Backed n code d) :
    Backed n code d a.script d := by
  have hlabel : Backed n code d (labelScript a.arm.label) d := by
    unfold labelScript
    split
    · exact .clean (hn.not_mentions (by decide))
    · rename_i label hlabel
      refine (Backed.clean (hn.not_mentions (by decide))).append (.uses ?_)
      exact (closed_covered hn).ending (h.label label hlabel) rfl
  exact (hlabel.append h.body).append (.clean (hn.not_mentions (by decide)))

theorem backed_switch (hn : Numbered n) {selector : String} (hs : Covered n (d = true) selector)
    {arms : List ArmScript} (h : ∀ a ∈ arms, a.Backed n code d) :
    Backed n code d (switchScript selector arms) d := by
  have hhead : Covered n (d = true) (s!"switch({selector})" ++ " \x7b") :=
    ((Joint.ofList hn rfl).arg hs rfl).last (covered_of_all hn (by decide))
  have harms : Backed n code d (arms.flatMap ArmScript.script) d := .flatten fun part hpart => by
    obtain ⟨a, ha, rfl⟩ := List.mem_map.1 hpart
    exact backed_arm hn (h a ha)
  refine (((Backed.uses hhead).append harms).append ?_).append
    (.clean (hn.not_mentions (by decide)))
  split
  · exact .nil d
  · exact .clean (hn.not_mentions (by decide))

end PacketC.Lower

/-! ### Parts that share a list -/

namespace PacketC

/-- A part of a statement: an expression in the frame of the statement, or a statement that has a
frame of its own. -/
inductive Part where
  | head (id : ExprId)
  | body (s : Statement)

/-- The parts of a statement in the order in which they are lowered. The branches of a conditional
come before its condition. -/
def Statement.parts : Statement → List Part
  | .block components _ => components.map .body
  | .cond condition ifTrue ifFalse =>
    ifTrue.toList.map .body ++ (ifFalse.toList.map .body ++ [.head condition])
  | .switch selector cases =>
    .head selector :: cases.flatMap fun a => .head a.label :: a.body.toList.map .body
  | .assign .. | .call .. | .decl .. | .empty => []

/-- Lowering the statement can come to the expression. -/
def Statement.Uses (p : Program) (e : ExprId) (s : Statement) : Prop :=
  ∃ x, (Task.stmt s).Starts p x ∧ p.Reaches x e

def Part.Uses (p : Program) (e : ExprId) : Part → Prop
  | .head x => p.Reaches x e
  | .body s => s.Uses p e

theorem Statement.Uses.of_part {p : Program} {e : ExprId} {s : Statement} {part : Part}
    (hpart : part ∈ s.parts) (h : part.Uses p e) : s.Uses p e := by
  have hhead : ∀ {x}, x ∈ s.expressions → p.Reaches x e → s.Uses p e := fun hx hr =>
    ⟨_, .inr ⟨s, .self s, hx⟩, hr⟩
  have hbody : ∀ {c : Statement}, c ∈ s.children → c.Uses p e → s.Uses p e := by
    rintro c hc ⟨x, ⟨d, b, hd, hb⟩ | ⟨t, ht, hx⟩, hr⟩
    · exact ⟨x, .inl ⟨d, b, .child hc hd, hb⟩, hr⟩
    · exact ⟨x, .inr ⟨t, .child hc ht, hx⟩, hr⟩
  cases s with
  | block components annotations =>
    obtain ⟨c, hc, rfl⟩ := List.mem_map.1 hpart
    exact hbody hc h
  | cond condition ifTrue ifFalse =>
    rcases List.mem_append.1 hpart with hpart | hpart
    · obtain ⟨c, hc, rfl⟩ := List.mem_map.1 hpart
      exact hbody (List.mem_append_left _ hc) h
    · rcases List.mem_append.1 hpart with hpart | hpart
      · obtain ⟨c, hc, rfl⟩ := List.mem_map.1 hpart
        exact hbody (List.mem_append_right _ hc) h
      · cases List.mem_singleton.1 hpart
        exact hhead (.head _) h
  | switch selector cases =>
    rcases List.mem_cons.1 hpart with rfl | hpart
    · exact hhead (.head _) h
    · obtain ⟨a, ha, hpart⟩ := List.mem_flatMap.1 hpart
      rcases List.mem_cons.1 hpart with rfl | hpart
      · exact hhead (.tail _ (List.mem_map_of_mem ha)) h
      · obtain ⟨c, hc, rfl⟩ := List.mem_map.1 hpart
        exact hbody (List.mem_filterMap.2 ⟨a, ha, Option.mem_toList.1 hc⟩) h
  | assign left right => cases hpart
  | call e => cases hpart
  | decl id => cases hpart
  | empty => cases hpart

/-- Whenever the expression is lowered, the list is met. -/
def Lower.Needs (env : Env) (e x : ExprId) : Prop :=
  ∀ s t text, expr x .value env s = (.ok text, t) → e ∈ t.memory.generated

/-- Parts that share a list so that its code is in scope for all of them, if the list was not met
before. Once it is met in the frame itself, all that follows may use it. If it may be met in a frame
inside, the parts that follow do without it. -/
inductive Keeps (env : Lower.Env) (e : ExprId) : List Part → Prop
  | nil : Keeps env e []
  | needed {x : ExprId} {rest : List Part} (h : Lower.Needs env e x) :
      Keeps env e (.head x :: rest)
  | head {x : ExprId} {rest : List Part} (h : Keeps env e rest) : Keeps env e (.head x :: rest)
  | unused {s : Statement} {rest : List Part} (hs : ¬ s.Uses env.program e)
      (h : Keeps env e rest) : Keeps env e (.body s :: rest)
  | body {s : Statement} {rest : List Part} (hs : Keeps env e s.parts)
      (h : ∀ part ∈ rest, ¬ part.Uses env.program e) : Keeps env e (.body s :: rest)

end PacketC
