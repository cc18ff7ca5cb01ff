import PacketC.Proofs.Lower.Confined
import PacketC.Proofs.Lower.Twins
import PacketC.Proofs.Output.Stacking

/-! Locks around atomic blocks. The code of a statement is taken apart into pieces, each with the
place of the statement that it was written for, and with what it does to the lock. In a control, the
pieces take and give back a lock for each atomic block, and wherever code stands, the locks that are
held are those of the atomic blocks around its statement. Elsewhere no lock is taken, and each
atomic block leaves a warning. -/

namespace PacketC

open Text

/-! ### Places -/

namespace Statement

/-- The statements right below one, by their number; a branch or a case may be without. -/
def bodies : Statement → List (Option Statement)
  | .block components _ => components.map some
  | .cond _ ifTrue ifFalse => [ifTrue, ifFalse]
  | .switch _ cases => cases.map SwitchArm.body
  | _ => []

/-- The places of the atomic blocks on the way down from a statement at `here`, the outermost
first. -/
def atomicsAlong (s : Statement) (here : List Nat) : List Nat → List (List Nat)
  | [] => if s.isAtomic then [here] else []
  | i :: rest => (if s.isAtomic then [here] else []) ++
      match s.bodies[i]? with
      | some (some c) => c.atomicsAlong (here ++ [i]) rest
      | _ => []

mutual

/-- The places of all the atomic blocks in a statement at `here`, in their order. -/
def atomics (here : List Nat) : Statement → List (List Nat)
  | .block components annotations =>
    (if annotations.contains atomicMark then [here] else []) ++ atomicsOfParts here 0 components
  | .cond _ ifTrue ifFalse => atomicsOfBody here 0 ifTrue ++ atomicsOfBody here 1 ifFalse
  | .switch _ cases => atomicsOfArms here 0 cases
  | _ => []

def atomicsOfBody (here : List Nat) (i : Nat) : Option Statement → List (List Nat)
  | none => []
  | some s => atomics (here ++ [i]) s

def atomicsOfParts (here : List Nat) (i : Nat) : List Statement → List (List Nat)
  | [] => []
  | s :: rest => atomics (here ++ [i]) s ++ atomicsOfParts here (i + 1) rest

def atomicsOfArms (here : List Nat) (i : Nat) : List (SwitchArm Statement) → List (List Nat)
  | [] => []
  | ⟨_, body⟩ :: rest => atomicsOfBody here i body ++ atomicsOfArms here (i + 1) rest

end

end Statement

namespace Lower

variable {text : String} {frame : Frame} {st : Statement}

/-! ### Pieces -/

inductive Role where
  | take | release | code
  deriving DecidableEq

/-- A piece of code, written for the statement at a place. -/
structure Piece where
  place : List Nat
  role : Role
  text : String

namespace Piece

def own (place : List Nat) (text : String) : Piece := ⟨place, .code, text⟩

/-- All but the white space, piece after piece. -/
def inks (ps : List Piece) : List Char := ps.flatMap fun x => ink x.text

/-- Where the lock is taken, in the order of the code. -/
def taken (ps : List Piece) : List (List Nat) :=
  ps.filterMap fun x => if x.role = .take then some x.place else none

/-- Where the lock is given back, in the order of the code. -/
def released (ps : List Piece) : List (List Nat) :=
  ps.filterMap fun x => if x.role = .release then some x.place else none

/-- The code that the statement at a place has around it. -/
def around (place : List Nat) (frame : Frame) (ps : List Piece) : List Piece :=
  frame.pre.map (own place) ++ ps ++ frame.post.map (own place)

/-- A body without any code is an empty statement of what it is a body of. -/
def orEmpty (place : List Nat) (ps : List Piece) : List Piece :=
  if inks ps = [] then ps ++ [own place ";"] else ps

end Piece

open Piece

/-- The type of the control that the statement is in. -/
def controlType (env : Env) : Option String :=
  match env.block.bind fun id => env.program.blocks[id.index]? with
  | some ⟨_, typeName, .control, _⟩ => some typeName
  | _ => none

/-- A macro applied to the lock of a type of controls. -/
def onLock (name typeName : String) : String := name ++ "(" ++ Target.lockName typeName ++ ")"

/-- A part of the code: of a statement at a place, or of the statements right below that place from
the given number on. -/
inductive Spot where
  | stmt (place : List Nat) (s : Statement)
  | body (place : List Nat) (i : Nat) (s : Option Statement)
  | parts (place : List Nat) (i : Nat) (l : List Statement)
  | arms (place : List Nat) (i : Nat) (l : List (SwitchArm Statement))

def isLeaf : Statement → Bool
  | .block .. | .cond .. | .switch .. => false
  | _ => true

/-- The pieces that lowering a part writes, from one state to another. What is put around a nested
statement belongs to that statement. -/
inductive Pieced (env : Env) : Spot → State → List Piece → State → Prop
  | leaf {place st s t text} (hleaf : isLeaf st = true)
      (h : statement expr st env s = (.ok text, t)) :
      Pieced env (.stmt place st) s [own place text] t
  | plain {place components annotations s t ps}
      (hmark : annotations.contains Statement.atomicMark = false)
      (h : Pieced env (.parts place 0 components) s ps t) :
      Pieced env (.stmt place (.block components annotations)) s ps t
  | locked {place components annotations s t ps typeName}
      (hmark : annotations.contains Statement.atomicMark = true)
      (htype : controlType env = some typeName)
      (h : Pieced env (.parts place 0 components) s ps t) :
      Pieced env (.stmt place (.block components annotations)) s
        (⟨place, .take, onLock env.config.lockMacro typeName⟩ :: ps ++
          [⟨place, .release, onLock env.config.unlockMacro typeName⟩]) t
  | unlocked {place components annotations s t ps}
      (hmark : annotations.contains Statement.atomicMark = true) (htype : controlType env = none)
      (h : Pieced env (.parts place 0 components)
        (s.note [missingLock]) ps t) :
      Pieced env (.stmt place (.block components annotations)) s ps t
  | cond {place condition ifTrue ifFalse s t u v ps qs c}
      (htrue : Pieced env (.body place 0 ifTrue) s ps t)
      (hfalse : Pieced env (.body place 1 ifFalse) t qs u)
      (hcond : expr condition .value env u = (.ok c, v)) :
      Pieced env (.stmt place (.cond condition ifTrue ifFalse)) s
        (own place ("if( " ++ (if isBlank c then "true" else c) ++ " ) \x7b") :: ps ++
          own place "\x7d else \x7b" :: qs ++ [own place "\x7d"]) v
  | switch {place selector cases s t u ps c arms}
      (hselector : expr selector .value env s = (.ok c, t))
      (harms : switchArms expr cases env t = (.ok arms, u))
      (h : Pieced env (.arms place 0 cases) t ps u) :
      Pieced env (.stmt place (.switch selector cases)) s
        (own place ("switch(" ++ c ++ ")" ++ " \x7b") :: ps ++
          (if arms.any fun a => a.label.isNone then [] else [own place "default: \x7b\x7d"]) ++
          [own place "\x7d"]) u
  | missing {place i s} : Pieced env (.body place i none) s [own place ";"] s
  | nested {place i st s t ps text} (hrun : statement expr st env (State.push s) = (.ok text, t))
      (h : Pieced env (.stmt (place ++ [i]) st) s.push ps t) :
      Pieced env (.body place i (some st)) s
        (orEmpty place (around (place ++ [i]) t.emission.pop.1 ps)) t.pop
  | nil {place i s} : Pieced env (.parts place i []) s [] s
  | cons {place i st l s t u ps qs} (hfirst : Pieced env (.body place i (some st)) s ps t)
      (hrest : Pieced env (.parts place (i + 1) l) t qs u) :
      Pieced env (.parts place i (st :: l)) s (ps ++ qs) u
  | noArm {place i s} : Pieced env (.arms place i []) s [] s
  | arm {place i id body l s t u v ps qs label}
      (hlabel : caseLabel expr id env s = (.ok label, t))
      (hbody : Pieced env (.body place i body) t ps u)
      (hrest : Pieced env (.arms place (i + 1) l) u qs v) :
      Pieced env (.arms place i (⟨id, body⟩ :: l)) s
        (own place (Arm.head ⟨label, ""⟩) :: ps ++ own place "break;" :: qs) v

/-! ### The text is that of the pieces -/

variable {env : Env} {place : List Nat} {i : Nat} {s t : State} {ps : List Piece} {part : Spot}

theorem inks_append (ps qs : List Piece) : inks (ps ++ qs) = inks ps ++ inks qs :=
  List.flatMap_append

theorem inks_cons (x : Piece) (ps : List Piece) : inks (x :: ps) = ink x.text ++ inks ps := rfl

theorem inks_own (place : List Nat) (codes : List String) :
    inks (codes.map (own place)) = codes.flatMap ink := by
  simp [inks, own, List.flatMap_map]

/-- What a statement comes to is what its pieces come to. -/
def IsPieced (env : Env) (st : Statement) : Prop :=
  ∀ (place : List Nat) {s t : State} {text : String}, statement expr st env s = (.ok text, t) →
    ∃ ps, Pieced env (.stmt place st) s ps t ∧ ink text = inks ps

theorem exists_of_enclosed {x : LowerM String} {s t : State} {body : String}
    (h : enclosed x env s = (.ok body, t)) : ∃ text u, x env s.push = (.ok text, u) ∧
      t = u.pop ∧ body = bodyText text u.emission.pop.1 := by
  obtain ⟨⟨text, f⟩, v, hframed, h⟩ := exists_of_bind h
  cases h
  obtain ⟨u, hx, rfl, rfl⟩ := exists_of_framed hframed
  exact ⟨text, u, hx, rfl, rfl⟩

theorem ink_bodyText (h : ink text = inks ps) (place below : List Nat) :
    ink (bodyText text frame) = inks (orEmpty place (around below frame ps)) := by
  have hall : (frame.pre ++ text :: frame.post).flatMap ink =
      inks (around below frame ps) := by
    rw [around, inks_append, inks_append, inks_own, inks_own, ← h]
    simp
  rw [bodyText, orEmpty, ← hall]
  simp only [stacked_isEmpty_iff]
  split
  · rename_i hnil
    rw [inks_append, ← hall, hnil]
    simp [inks, own]
  · rw [ink_reading.stacked, hall]

theorem IsPieced.body (hst : IsPieced env st) {body : String}
    (h : enclosed (statement expr st) env s = (.ok body, t)) :
    ∃ ps, Pieced env (.body place i (some st)) s ps t ∧ ink body = inks ps := by
  obtain ⟨text, u, hrun, rfl, rfl⟩ := exists_of_enclosed h
  obtain ⟨ps, hps, hink⟩ := hst (place ++ [i]) hrun
  exact ⟨_, .nested hrun hps, ink_bodyText hink _ _⟩

theorem IsPieced.nested {body : Option Statement} (h : ∀ c, body = some c → IsPieced env c)
    (hrun : bodyBy (statement expr) body env s = (.ok text, t)) :
    ∃ ps, Pieced env (.body place i body) s ps t ∧ ink text = inks ps := by
  cases body with
  | none => cases hrun; exact ⟨_, .missing, (List.append_nil _).symm⟩
  | some c => exact IsPieced.body (h c rfl) hrun

theorem IsPieced.parts {l : List Statement} (h : ∀ c ∈ l, IsPieced env c) (place : List Nat)
    {texts : List String}
    (hrun : l.mapM (fun c => enclosed (statement expr c)) env s = (.ok texts, t)) :
    ∃ ps, Pieced env (.parts place i l) s ps t ∧ texts.flatMap ink = inks ps := by
  induction l generalizing i s texts with
  | nil => cases hrun; exact ⟨[], .nil, rfl⟩
  | cons c l ih =>
    rw [List.mapM_cons] at hrun
    obtain ⟨text, u, hfirst, hrun⟩ := exists_of_bind hrun
    obtain ⟨rest, v, hrest, hrun⟩ := exists_of_bind hrun
    cases hrun
    obtain ⟨ps, hps, hink⟩ := IsPieced.body (h c (.head l)) hfirst
    obtain ⟨qs, hqs, hinks⟩ := ih (fun d hd => h d (.tail c hd)) hrest
    exact ⟨ps ++ qs, .cons hps hqs, by rw [List.flatMap_cons, inks_append, hink, hinks]⟩

theorem IsPieced.arms {l : List (SwitchArm Statement)}
    (h : ∀ a ∈ l, ∀ c, a.body = some c → IsPieced env c) {place : List Nat} {i : Nat} {s t : State}
    {arms : List Arm} (hrun : l.mapM (armBy expr (statement expr)) env s = (.ok arms, t)) :
    ∃ ps, Pieced env (.arms place i l) s ps t ∧ arms.flatMap (Reading.arm ink) = inks ps := by
  induction l generalizing i s arms with
  | nil => cases hrun; exact ⟨[], .noArm, rfl⟩
  | cons a l ih =>
    obtain ⟨id, body⟩ := a
    rw [List.mapM_cons] at hrun
    obtain ⟨arm, v, hfirst, hrun⟩ := exists_of_bind hrun
    obtain ⟨rest, w, hrest, hrun⟩ := exists_of_bind hrun
    cases hrun
    obtain ⟨label, u, hlabel, hfirst⟩ := exists_of_bind hfirst
    obtain ⟨text, u', hbody, hfirst⟩ := exists_of_bind hfirst
    cases hfirst
    obtain ⟨ps, hps, hink⟩ := IsPieced.nested (h _ (.head l)) hbody
    obtain ⟨qs, hqs, hinks⟩ := ih (fun b hb => h b (.tail _ hb)) hrest
    refine ⟨_, .arm hlabel hps hqs, ?_⟩
    rw [List.flatMap_cons, hinks, Reading.arm, hink, inks_append, inks_cons, inks_cons]
    simp [own, Arm.head]


theorem controlLock_run (s : State) : controlLock env s =
    match controlType env with
    | some typeName => (.ok (some (Target.lockName typeName)), s)
    | none => (.ok none, s.note [missingLock]) := by
  have hread : (read : LowerM Env) env = (pure env : LowerM Env) env := rfl
  rw [controlLock, bind_of_pure hread, controlType]
  generalize (env.block.bind fun id => env.program.blocks[id.index]?) = block
  rcases block with _ | ⟨_, _, _ | _, _⟩ <;> rfl

theorem isPieced_block {components : List Statement} {annotations : List String}
    (h : ∀ c ∈ components, IsPieced env c) : IsPieced env (.block components annotations) := by
  intro place s t text hrun
  rw [statement_eq_step, statementStep] at hrun
  dsimp only at hrun
  cases hmark : annotations.contains Statement.atomicMark with
  | false =>
    rw [hmark] at hrun
    obtain ⟨parts, u, hparts, hrun⟩ := exists_of_bind (f := fun parts => do
      return blockText (← config) none parts) hrun
    cases hrun
    obtain ⟨ps, hps, hink⟩ := IsPieced.parts h place hparts
    exact ⟨ps, .plain hmark hps, by rw [blockText, ink_reading.stacked, hink]⟩
  | true =>
    rw [hmark] at hrun
    obtain ⟨lock, u, hlock, hrun⟩ := exists_of_bind hrun
    obtain ⟨parts, v, hparts, hrun⟩ := exists_of_bind hrun
    cases hrun
    obtain ⟨ps, hps, hink⟩ := IsPieced.parts h place hparts
    have hlock := (controlLock_run s).symm.trans hlock
    cases htype : controlType env with
    | some typeName =>
      rw [htype] at hlock
      cases hlock
      refine ⟨_, .locked hmark htype hps, ?_⟩
      show ink (stacked (onLock env.config.lockMacro typeName :: parts ++
        [onLock env.config.unlockMacro typeName])) = _
      rw [ink_reading.stacked, List.cons_append, List.flatMap_cons, List.flatMap_append, hink]
      simp [inks]
    | none =>
      rw [htype] at hlock
      cases hlock
      exact ⟨ps, .unlocked hmark htype hps, by rw [blockText, ink_reading.stacked, hink]⟩

theorem isPieced_statement (st : Statement) : IsPieced env st := by
  have hchildren : ∀ c ∈ st.children, IsPieced env c := fun c hc => isPieced_statement c
  intro place s t text hrun
  cases st with
  | block components annotations => exact isPieced_block hchildren place hrun
  | cond condition ifTrue ifFalse =>
    simp only [Statement.children, List.mem_append, Option.mem_toList] at hchildren
    rw [statement_eq_step, statementStep] at hrun
    obtain ⟨ifText, s₁, htrue, hrun⟩ := exists_of_bind hrun
    obtain ⟨elseText, s₂, hfalse, hrun⟩ := exists_of_bind hrun
    obtain ⟨c, s₃, hcond, hrun⟩ := exists_of_bind hrun
    cases hrun
    obtain ⟨ps, hps, hink⟩ := IsPieced.nested (fun c hc => hchildren c (.inl hc)) htrue
    obtain ⟨qs, hqs, hinks⟩ := IsPieced.nested (fun c hc => hchildren c (.inr hc)) hfalse
    refine ⟨_, .cond hps hqs hcond, ?_⟩
    rw [ink_reading.condText, hink, hinks]
    simp [own, inks, toString]
  | switch selector cases =>
    rw [statement_eq_step, statementStep] at hrun
    obtain ⟨c, s₁, hselector, hrun⟩ := exists_of_bind hrun
    obtain ⟨arms, s₂, harms, hrun⟩ := exists_of_bind hrun
    cases hrun
    obtain ⟨ps, hps, hink⟩ := IsPieced.arms (fun a ha c hc =>
      hchildren c (List.mem_filterMap.2 ⟨a, ha, hc⟩)) harms
    rw [← switchArms_eq] at harms
    refine ⟨_, .switch hselector harms hps, ?_⟩
    rw [ink_reading.switchText, hink]
    split <;> simp [own, inks, toString]
  | _ => exact ⟨_, .leaf rfl hrun, (List.append_nil _).symm⟩
termination_by sizeOf st
decreasing_by exact sizeOf_lt_of_mem_children hc

/-! ### Warnings -/

/-- How often a missing lock has been noted. -/
def warned (s : State) : Nat := s.memory.diagnostics.count missingLock

theorem warned_note (s : State) (ds : List Diagnostic) :
    warned (s.note ds) = warned s + ds.count missingLock :=
  List.count_append ..

/-- Only statements with frames note a missing lock. -/
theorem InStep.unwarned {α : Type} {L : Licence} {r₁ r₂ : Recur} {x y : LowerM α}
    (h : InStep env env L r₁ r₂ x y) (hframes : ¬L.frames)
    (hr : ∀ id mode s, warned (r₁ id mode env s).2 = warned s) :
    ∀ s, warned (x env s).2 = warned s := by
  induction h with
  | bind _ _ ihx ihf =>
    intro s
    have hx := ihx s
    rw [run_bind]
    split
    · rename_i a t ht
      rw [ht] at hx
      exact (ihf a ⟨s, t, ht⟩ t).trans hx
    · rename_i e t ht
      rw [ht] at hx
      exact hx
  | @note ds h =>
    intro s
    have hcount : ds.count missingLock = 0 := List.count_eq_zero.2 fun hmem => hframes (h hmem)
    exact (warned_note s ds).trans (by rw [hcount, Nat.add_zero])
  | firstTime =>
    intro s
    rw [run_firstTime]
    split <;> rfl
  | framed h => exact (hframes h).elim
  | enter _ mode => exact hr _ mode
  | inEnv hx _ _ ih => intro s; rw [hx]; exact ih s
  | _ => exact fun _ => rfl

theorem expr_unwarned (id : ExprId) (mode : Mode) (s : State) :
    warned (expr id mode env s).2 = warned s :=
  expr_keeps (R := fun s t => warned t = warned s) (fun _ => rfl)
    (fun _ _ _ h he mode => (nodeText_unframed he mode).unwarned (fun h => h) h) id mode s

theorem leaf_unframed (h : isLeaf st = true) :
    InStep env env .unframed expr expr (statement expr st) (statement expr st) := by
  have hsuits := Licence.unframed_suits env
  rw [statement_eq_step]
  cases st with
  | assign left right =>
    exact assign_inStep hsuits rfl ⟨trivial, fun hs => hs.strict.elim⟩
      ⟨trivial, fun hs => hs.strict.elim⟩
  | call id =>
    exact runCall_inStep hsuits (Licence.unframed_admitsCalls env) (fun hs => hs.strict.elim)
      fun _ _ => trivial
  | decl id =>
    exact declaration_inStep hsuits none (fun hs => hs.strict.elim) fun _ _ _ _ => trivial
  | empty => exact .pure _
  | _ => cases h

theorem caseLabel_unwarned (id : ExprId) (s : State) :
    warned (caseLabel expr id env s).2 = warned s := by
  have hstep : InStep env env .unframed expr expr (caseLabel expr id) (caseLabel expr id) :=
    caseLabel_inStep (Licence.unframed_suits env) ⟨trivial, fun hs => hs.strict.elim⟩
  exact hstep.unwarned (fun h => h) expr_unwarned s

/-- The places of the atomic blocks in a part of the code. -/
def Spot.atomics : Spot → List (List Nat)
  | .stmt place s => s.atomics place
  | .body place i s => Statement.atomicsOfBody place i s
  | .parts place i l => Statement.atomicsOfParts place i l
  | .arms place i l => Statement.atomicsOfArms place i l

theorem atomics_of_isLeaf (h : isLeaf st = true) (place : List Nat) : st.atomics place = [] := by
  cases st with
  | block => cases h
  | cond => cases h
  | switch => cases h
  | _ => simp [Statement.atomics]

/-- How often one atomic block is noted. -/
def toll (env : Env) : Nat := if (controlType env).isNone then 1 else 0

/-- Outside of a control, each atomic block is noted once; in one, none is. -/
theorem Pieced.warned_eq (h : Pieced env part s ps t) :
    warned t = warned s + toll env * part.atomics.length := by
  induction h with
  | @leaf place st s t text hleaf hrun =>
    have hstep : warned (statement expr st env s).2 = warned s :=
      (leaf_unframed hleaf).unwarned (fun h => h) expr_unwarned s
    rw [hrun] at hstep
    simp [hstep, Spot.atomics, atomics_of_isLeaf hleaf]
  | plain hmark _ ih =>
    simp only [ih, Spot.atomics, Statement.atomics, hmark, Bool.false_eq_true, if_false,
      List.nil_append]
  | locked _ htype _ ih => simp [ih, toll, htype]
  | unlocked hmark htype _ ih =>
    simp only [ih, warned_note, Spot.atomics, Statement.atomics, hmark, if_true, toll, htype,
      Option.isNone_none, List.singleton_append, List.length_cons, List.count_singleton_self]
    omega
  | @cond _ condition _ _ _ _ u _ _ _ _ _ _ hcond ihtrue ihfalse =>
    have hunwarned : warned (expr condition .value env u).2 = warned u := expr_unwarned ..
    rw [hcond] at hunwarned
    simp only [hunwarned, ihfalse, ihtrue, Spot.atomics, Statement.atomics, List.length_append,
      Nat.mul_add, Nat.add_assoc]
  | @switch _ selector _ s _ _ _ _ _ hselector _ _ ih =>
    have hunwarned : warned (expr selector .value env s).2 = warned s := expr_unwarned ..
    rw [hselector] at hunwarned
    simp only [ih, hunwarned, Spot.atomics, Statement.atomics]
  | missing | nil | noArm =>
    simp [Spot.atomics, Statement.atomicsOfBody, Statement.atomicsOfParts,
      Statement.atomicsOfArms]
  | nested _ _ ih => exact ih
  | cons _ _ ihfirst ihrest =>
    simp only [ihrest, ihfirst, Spot.atomics, Statement.atomicsOfParts, Statement.atomicsOfBody,
      List.length_append, Nat.mul_add, Nat.add_assoc]
  | @arm _ _ id _ _ s _ _ _ _ _ _ hlabel _ _ ihbody ihrest =>
    have hunwarned : warned (caseLabel expr id env s).2 = warned s := caseLabel_unwarned ..
    rw [hlabel] at hunwarned
    simp only [ihrest, ihbody, hunwarned, Spot.atomics, Statement.atomicsOfArms,
      List.length_append, Nat.mul_add, Nat.add_assoc]

/-! ### Roles -/

/-- Code that is not about the lock, or the macro for it applied to the lock of the control. -/
def Piece.Fits (env : Env) (x : Piece) : Prop :=
  x.role = .code ∨ ∃ typeName, controlType env = some typeName ∧ x.text =
    onLock (if x.role = .take then env.config.lockMacro else env.config.unlockMacro) typeName

theorem fits_own (place : List Nat) (text : String) : (own place text).Fits env := .inl rfl

theorem forall_mem_around {P : Piece → Prop} {place : List Nat} {ps : List Piece}
    (hown : ∀ text, P (own place text)) (h : ∀ x ∈ ps, P x) : ∀ x ∈ around place frame ps, P x := by
  simp only [around, List.forall_mem_append, List.forall_mem_map]
  exact ⟨⟨fun _ _ => hown _, h⟩, fun _ _ => hown _⟩

theorem forall_mem_orEmpty {P : Piece → Prop} (hown : ∀ text, P (own place text))
    (h : ∀ x ∈ ps, P x) : ∀ x ∈ orEmpty place ps, P x := by
  rw [orEmpty]
  split
  · exact List.forall_mem_append.2 ⟨h, List.forall_mem_singleton.2 (hown _)⟩
  · exact h

theorem Pieced.fits (h : Pieced env part s ps t) : ∀ x ∈ ps, x.Fits env := by
  have hown := @fits_own env
  have hnil : ∀ x ∈ ([] : List Piece), x.Fits env := List.forall_mem_nil _
  induction h with
  | leaf | missing => exact List.forall_mem_singleton.2 (hown ..)
  | plain _ _ ih | unlocked _ _ _ ih => exact ih
  | locked _ htype _ ih =>
    simp only [List.cons_append, List.forall_mem_cons, List.forall_mem_append]
    exact ⟨.inr ⟨_, htype, rfl⟩, ih, .inr ⟨_, htype, rfl⟩, hnil⟩
  | cond _ _ _ ihtrue ihfalse =>
    simp only [List.cons_append, List.append_assoc, List.forall_mem_cons, List.forall_mem_append]
    exact ⟨hown .., ihtrue, hown .., ihfalse, hown .., hnil⟩
  | switch _ _ _ ih =>
    simp only [List.cons_append, List.append_assoc, List.forall_mem_cons, List.forall_mem_append]
    refine ⟨hown .., ih, ?_, hown .., hnil⟩
    split
    · exact hnil
    · exact List.forall_mem_singleton.2 (hown ..)
  | nested _ _ ih => exact forall_mem_orEmpty (hown _) (forall_mem_around (hown _) ih)
  | nil | noArm => exact hnil
  | cons _ _ ihfirst ihrest => exact List.forall_mem_append.2 ⟨ihfirst, ihrest⟩
  | arm _ _ _ ihbody ihrest =>
    simp only [List.cons_append, List.forall_mem_cons, List.forall_mem_append]
    exact ⟨hown .., ihbody, hown .., ihrest⟩

/-! ### Locks that are held -/

/-- Piece after piece, from the locks that are held at first: a lock is taken on top of the others,
the last one is given back first, code stands where just the locks that its place asks for are held,
and none is left in the end. -/
def Held (locks : List Nat → List (List Nat)) : List (List Nat) → List Piece → Prop
  | held, [] => held = []
  | held, ⟨place, .take, _⟩ :: ps => Held locks (held ++ [place]) ps
  | held, ⟨place, .release, _⟩ :: ps => ∃ outer, held = outer ++ [place] ∧ Held locks outer ps
  | held, ⟨place, .code, _⟩ :: ps => held = locks place ∧ Held locks held ps

variable {locks : List Nat → List (List Nat)} {held : List (List Nat)}

/-- What is held or taken is given back. -/
theorem Held.released_perm (h : Held locks held ps) : (held ++ taken ps).Perm (released ps) := by
  induction ps generalizing held with
  | nil => rw [show held = [] from h]; exact .nil
  | cons x ps ih =>
    obtain ⟨place, _ | _ | _, text⟩ := x
    · have hrest := ih h
      rwa [List.append_assoc] at hrest
    · obtain ⟨outer, rfl, h⟩ := h
      show (outer ++ [place] ++ taken ps).Perm (place :: released ps)
      rw [List.append_assoc]
      exact List.perm_middle.trans ((ih h).cons place)
    · exact ih h.2

/-- The pieces leave the locks as they find them, and take those at `places` on the way. -/
structure Orderly (locks : List Nat → List (List Nat)) (held : List (List Nat)) (ps : List Piece)
    (places : List (List Nat)) : Prop where
  passes : ∀ {rest}, Held locks held rest → Held locks held (ps ++ rest)
  taken : taken ps = places

namespace Orderly

variable {ps qs : List Piece} {as bs : List (List Nat)} {place : List Nat}

theorem nil : Orderly locks held [] [] := ⟨id, rfl⟩

theorem append (h : Orderly locks held ps as) (k : Orderly locks held qs bs) :
    Orderly locks held (ps ++ qs) (as ++ bs) where
  passes hrest := by
    rw [List.append_assoc]
    exact h.passes (k.passes hrest)
  taken := by
    rw [Piece.taken, List.filterMap_append, ← Piece.taken, ← Piece.taken, h.taken, k.taken]

theorem own (hplace : held = locks place) (text : String) (h : Orderly locks held ps as) :
    Orderly locks held (Piece.own place text :: ps) as :=
  ⟨fun hrest => ⟨hplace, h.passes hrest⟩, h.taken⟩

theorem owns (hplace : held = locks place) (codes : List String) :
    Orderly locks held (codes.map (Piece.own place)) [] := by
  induction codes with
  | nil => exact .nil
  | cons code codes ih => exact ih.own hplace code

theorem around (hplace : held = locks place) (frame : Frame) (h : Orderly locks held ps as) :
    Orderly locks held (Piece.around place frame ps) as := by
  have hall := ((owns hplace frame.pre).append h).append (owns hplace frame.post)
  rwa [List.nil_append, List.append_nil] at hall

theorem orEmpty (hplace : held = locks place) (h : Orderly locks held ps as) :
    Orderly locks held (Piece.orEmpty place ps) as := by
  rw [Piece.orEmpty]
  split
  · simpa using h.append (nil.own hplace ";")
  · exact h

theorem locked {take release : String} (h : Orderly locks (held ++ [place]) ps as) :
    Orderly locks held (⟨place, .take, take⟩ :: ps ++ [⟨place, .release, release⟩])
      (place :: as) where
  passes hrest := by
    rw [List.append_assoc]
    exact h.passes ⟨held, rfl, hrest⟩
  taken := by
    have htaken := h.taken
    simp only [Piece.taken, List.cons_append] at htaken ⊢
    simp [htaken]

end Orderly

/-- Wherever there is code for a statement with number `i` below a place, the locks that it asks for
are those that are held and those of the atomic blocks on the way to it. -/
def Below (locks : List Nat → List (List Nat)) (held : List (List Nat)) (place : List Nat) (i : Nat)
    (c : Statement) : Prop :=
  ∀ way, locks (place ++ i :: way) = held ++ c.atomicsAlong (place ++ [i]) way

def Spot.Guarded (locks : List Nat → List (List Nat)) (held : List (List Nat)) : Spot → Prop
  | .stmt place s => ∀ way, locks (place ++ way) = held ++ s.atomicsAlong place way
  | .body place i s => held = locks place ∧ ∀ c, s = some c → Below locks held place i c
  | .parts place i l => held = locks place ∧
      ∀ j c, l[j]? = some c → Below locks held place (i + j) c
  | .arms place i l => held = locks place ∧
      ∀ j a c, l[j]? = some a → a.body = some c → Below locks held place (i + j) c

/-- The lock of the statement itself, if it is an atomic block. -/
def ownLock (s : Statement) (place : List Nat) : List (List Nat) :=
  if s.isAtomic then [place] else []

/-- From a statement to the statements right below it. -/
theorem Spot.Guarded.bodies {held' : List (List Nat)} (h : (Spot.stmt place st).Guarded locks held)
    (hheld : held ++ ownLock st place = held') :
    held' = locks place ∧
      ∀ i c, st.bodies[i]? = some (some c) → Below locks held' place i c := by
  subst hheld
  constructor
  · have hnil := h []
    rw [List.append_nil, Statement.atomicsAlong] at hnil
    exact hnil.symm
  · intro i c hc way
    rw [h (i :: way), Statement.atomicsAlong, hc, List.append_assoc]
    rfl

theorem Spot.Guarded.parts {components : List Statement} {annotations : List String}
    {held' : List (List Nat)}
    (h : (Spot.stmt place (.block components annotations)).Guarded locks held)
    (hheld : held ++ ownLock (.block components annotations) place = held') :
    (Spot.parts place 0 components).Guarded locks held' := by
  obtain ⟨hplace, hbelow⟩ := h.bodies hheld
  refine ⟨hplace, fun j c hc => ?_⟩
  rw [Nat.zero_add]
  exact hbelow j c (by rw [Statement.bodies, List.getElem?_map, hc]; rfl)

theorem Spot.Guarded.body {i : Nat} (h : (Spot.body place i (some st)).Guarded locks held) :
    (Spot.stmt (place ++ [i]) st).Guarded locks held := by
  intro way
  rw [List.append_assoc]
  exact h.2 st rfl way

/-- A block puts nothing around itself. -/
theorem pop_of_isAtomic (hatomic : st.isAtomic = true) {s t : State}
    (h : statement expr st env s.push = (.ok text, t)) : t.emission.pop.1 = ⟨[], []⟩ := by
  cases st with
  | block components annotations =>
    have henclosed := @block_enclosed env components annotations s.push
    rw [h] at henclosed
    rw [← henclosed]
    rfl
  | _ => cases hatomic

/-- In a control, the pieces of a part leave the locks as they find them, and take one for each
atomic block of the part. The induction carries that all places below are guarded by what is
held. -/
theorem Pieced.orderly {typeName : String} (hcontrol : controlType env = some typeName)
    (h : Pieced env part s ps t)
    (hguarded : part.Guarded locks held) : Orderly locks held ps part.atomics := by
  induction h generalizing held with
  | @leaf place st _ _ text hleaf =>
    have hown : ownLock st place = [] := by cases st <;> first | rfl | cases hleaf
    obtain ⟨hplace, -⟩ := hguarded.bodies (by rw [hown, List.append_nil])
    rw [Spot.atomics, atomics_of_isLeaf hleaf]
    exact Orderly.nil.own hplace text
  | @plain place components annotations _ _ _ hmark _ ih =>
    have hown : ownLock (.block components annotations) place = [] := by
      rw [ownLock, Statement.isAtomic, hmark]; rfl
    have hparts := ih (hguarded.parts (by rw [hown, List.append_nil]))
    rwa [Spot.atomics, Statement.atomics, hmark]
  | @locked place components annotations _ _ _ _ hmark _ _ ih =>
    have hown : ownLock (.block components annotations) place = [place] := by
      rw [ownLock, Statement.isAtomic, hmark]; rfl
    have hparts := ih (hguarded.parts (by rw [hown]))
    rw [Spot.atomics, Statement.atomics, hmark]
    exact hparts.locked
  | unlocked _ htype => rw [hcontrol] at htype; cases htype
  | cond _ _ _ ihtrue ihfalse =>
    obtain ⟨hplace, hbelow⟩ := hguarded.bodies (List.append_nil held)
    have htrue := ihtrue ⟨hplace, fun c hc => hbelow 0 c (congrArg some hc)⟩
    have hfalse := ihfalse ⟨hplace, fun c hc => hbelow 1 c (congrArg some hc)⟩
    simpa [Spot.atomics, Statement.atomics] using (htrue.own hplace _).append
      ((hfalse.own hplace _).append (Orderly.nil.own hplace "\x7d"))
  | switch _ _ _ ih =>
    obtain ⟨hplace, hbelow⟩ := hguarded.bodies (List.append_nil held)
    have harms := ih ⟨hplace, fun j a c ha hc => by
      rw [Nat.zero_add]
      exact hbelow j c (by rw [Statement.bodies, List.getElem?_map, ha, Option.map_some, hc])⟩
    simp only [Spot.atomics, Statement.atomics] at harms ⊢
    split
    · simpa using (harms.own hplace _).append (Orderly.nil.own hplace "\x7d")
    · simpa using (harms.own hplace _).append
        ((Orderly.nil.own hplace "\x7d").own hplace "default: \x7b\x7d")
  | missing => exact Orderly.nil.own hguarded.1 _
  | @nested place i st _ t _ _ hrun _ ih =>
    have hstmt := ih hguarded.body
    refine Orderly.orEmpty hguarded.1 ?_
    cases hatomic : st.isAtomic with
    | true =>
      rw [pop_of_isAtomic hatomic hrun]
      simpa [Piece.around, Spot.atomics, Statement.atomicsOfBody] using hstmt
    | false =>
      obtain ⟨hplace, -⟩ := hguarded.body.bodies (show held ++ ownLock st (place ++ [i]) = held by
        simp [ownLock, hatomic])
      exact hstmt.around hplace _
  | nil | noArm => exact .nil
  | @cons place i st l _ _ _ _ _ _ _ ihfirst ihrest =>
    have hfirst := ihfirst ⟨hguarded.1, fun c hc => hguarded.2 0 c hc⟩
    have hrest := ihrest ⟨hguarded.1, fun j c hc => by
      rw [Nat.add_right_comm]; exact hguarded.2 (j + 1) c hc⟩
    exact hfirst.append hrest
  | @arm place i id body l _ _ _ _ _ _ _ _ _ _ ihbody ihrest =>
    have hbody := ihbody ⟨hguarded.1, fun c hc => hguarded.2 0 _ c rfl hc⟩
    have hrest := ihrest ⟨hguarded.1, fun j a c ha hc => by
      rw [Nat.add_right_comm]; exact hguarded.2 (j + 1) a c ha hc⟩
    exact (hbody.own hguarded.1 _).append (hrest.own hguarded.1 _)

/-- In a control, the pieces of a statement take a lock for each atomic block in it and give it
back, with the macros of the configuration and the lock of the control, nested as the blocks are,
and each piece of code has the locks of just those blocks around it that its statement is in.
Elsewhere they leave the lock alone. -/
def LockedWell (env : Env) (st : Statement) (ps : List Piece) : Prop :=
  match controlType env with
  | some typeName =>
    taken ps = st.atomics [] ∧ (released ps).Perm (st.atomics []) ∧
      Held (st.atomicsAlong []) [] ps ∧ ∀ x ∈ ps, x.role = .code ∨ x.text =
        onLock (if x.role = .take then env.config.lockMacro else env.config.unlockMacro) typeName
  | none => ∀ x ∈ ps, x.role = .code

theorem lockedWell_of_lays {s t : State} (h : Pieced env (.stmt [] st) s ps t)
    (hframe : st.isAtomic = true → frame = ⟨[], []⟩) : LockedWell env st (around [] frame ps) := by
  have hfits : ∀ x ∈ around [] frame ps, x.Fits env := forall_mem_around (fits_own []) h.fits
  rw [LockedWell]
  cases hcontrol : controlType env with
  | none =>
    intro x hx
    refine (hfits x hx).resolve_right ?_
    rintro ⟨_, htype, -⟩
    rw [hcontrol] at htype
    cases htype
  | some typeName =>
    have hguarded : (Spot.stmt [] st).Guarded (st.atomicsAlong []) [] := fun way => rfl
    have horderly := h.orderly hcontrol hguarded
    have hall : Orderly (st.atomicsAlong []) [] (around [] frame ps) (st.atomics []) := by
      cases hatomic : st.isAtomic with
      | true =>
        rw [hframe hatomic]
        simpa [Piece.around, Spot.atomics] using horderly
      | false =>
        obtain ⟨hplace, -⟩ := hguarded.bodies (show [] ++ ownLock st [] = [] by
          simp [ownLock, hatomic])
        exact horderly.around hplace _
    have hheld : Held (st.atomicsAlong []) [] (around [] frame ps) := by
      simpa using hall.passes (show Held (st.atomicsAlong []) [] [] from rfl)
    refine ⟨hall.taken, hall.taken ▸ hheld.released_perm.symm, hheld, fun x hx => ?_⟩
    refine (hfits x hx).imp_right ?_
    rintro ⟨_, htype, htext⟩
    rw [hcontrol] at htype
    cases htype
    exact htext

end Lower

namespace Session

open Lower Piece

/-- The fragment of a statement consists of pieces that lock its atomic blocks well, and each atomic
block that is not in a control adds one warning. -/
theorem atomic_blocks_locked {s s' : Session} {p : Program} {block : Option BlockId}
    {st : Statement} {f : Fragment} (h : s.lowerStatement p st block = (.ok f, s')) :
    ∃ ps t, Pieced ⟨s.scope p, block⟩ (.stmt [] st) ⟨s.memory, .empty⟩ ps t ∧
      ink f.render = inks (around [] ⟨f.pre, f.post⟩ ps) ∧
      LockedWell ⟨s.scope p, block⟩ st (around [] ⟨f.pre, f.post⟩ ps) ∧
      s'.diagnostics.count missingLock = s.diagnostics.count missingLock +
        if (controlType ⟨s.scope p, block⟩).isNone then (st.atomics []).length else 0 := by
  have hframe : st.isAtomic = true → Frame.mk f.pre f.post = ⟨[], []⟩ := by
    intro hatomic
    cases st with
    | block components annotations =>
      obtain ⟨hpre, hpost⟩ := block_hoists h
      rw [hpre, hpost]
    | _ => cases hatomic
  obtain ⟨text, t, hrun, rfl, rfl⟩ := exists_of_run h
  obtain ⟨ps, hps, hink⟩ := isPieced_statement st [] hrun
  refine ⟨ps, t, hps, ?_, lockedWell_of_lays hps hframe, ?_⟩
  · rw [Fragment.render, ink_reading.stacked, Fragment.pieces, around, inks_append,
      inks_append, inks_own, inks_own, ← hink]
    simp
  · refine hps.warned_eq.trans ?_
    rw [toll]
    split <;> simp [warned, diagnostics, Spot.atomics]

/-- A control, and a comparison that needs an array for its constant. -/
def guardedControl : Program where
  exprs := #[.number 0 48 1, .binary 1 .bool .equ 0 0]
  blocks := #[⟨"c", "Count", .control, []⟩]

/-- An atomic block with a conditional, of which one branch is an atomic block again. -/
def nestedAtomics : Statement := .atomic [.cond ⟨1⟩ (some (.atomic [.cond ⟨1⟩ none none])) none]

theorem nestedAtomics_locked : ∃ f s' g t',
    (start .standard).lowerStatement guardedControl nestedAtomics (some ⟨0⟩) = (.ok f, s') ∧
    (∃ ps, ink f.render = inks ps ∧ taken ps = [[], [0, 0]] ∧
      Held (nestedAtomics.atomicsAlong []) [] ps) ∧
    (start .standard).lowerStatement guardedControl nestedAtomics none = (.ok g, t') ∧
    (∃ ps, ink g.render = inks ps ∧ ∀ x ∈ ps, x.role = .code) ∧
    t'.diagnostics.count missingLock = 2 := by
  have hinside : (start .standard).lowerStatement guardedControl nestedAtomics (some ⟨0⟩) =
    (.ok _, _) := rfl
  have houtside : (start .standard).lowerStatement guardedControl nestedAtomics none =
    (.ok _, _) := rfl
  obtain ⟨_, _, -, hink, ⟨htaken, -, hheld, -⟩, -⟩ := atomic_blocks_locked hinside
  obtain ⟨_, _, -, hink', hcode, hcount⟩ := atomic_blocks_locked houtside
  exact ⟨_, _, _, _, hinside, ⟨_, hink, htaken, hheld⟩, houtside, ⟨_, hink', hcode⟩, hcount⟩

end Session

end PacketC
