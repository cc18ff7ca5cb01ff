import PacketC.Proofs.Lower.Task
import PacketC.Proofs.Scope.Script

/-! Statements lowered together with the script of their code. The text is the one that lowering
yields, the state goes the same way, and the text reads word for word as its script. -/

namespace PacketC.Lower

open Code

/-- A text together with its script. -/
abbrev Outlined := String × Script

/-! ### Lowering with a script -/

/-- An action in a frame of its own, with the frame's code around its script. -/
def enclosedScript (x : LowerM Outlined) : LowerM Outlined := do
  let ((text, script), frame) ← framed x
  return (bodyText text frame, nestled (enframed frame.pre script frame.post))

/-- The lock is taken before the parts of a block and given back after them. -/
def blockScript (c : Config) (lock : Option String) (parts : List Script) : Script :=
  match lock with
  | none => parts.flatten
  | some lock =>
    .code s!"{c.lockMacro}({lock})" :: parts.flatten ++ [.code s!"{c.unlockMacro}({lock})"]

def condScript (condition : String) (ifTrue ifFalse : Script) : Script :=
  .code s!"if( {condition} ) \x7b" :: ifTrue ++ .code "\x7d else \x7b" :: ifFalse ++
    [.code "\x7d"]

/-- An arm of a switch with the script of its body. -/
structure ArmScript where
  arm : Arm
  body : Script

/-- The label is a piece of its own, so that it does not read as declared. -/
def labelScript : Option String → Script
  | none => [.code "default:"]
  | some label => [.code "case ", .code (label ++ ":")]

def ArmScript.script (a : ArmScript) : Script :=
  labelScript a.arm.label ++ a.body ++ [.code "break;"]

def switchScript (selector : String) (arms : List ArmScript) : Script :=
  .code (s!"switch({selector})" ++ " \x7b") :: arms.flatMap ArmScript.script ++
    (if arms.any fun a => a.arm.label.isNone then [] else [.code "default: \x7b\x7d"]) ++
    [.code "\x7d"]

/-- A statement without statements in it is one piece. -/
def single (x : LowerM String) : LowerM Outlined := do
  let text ← x
  return (text, [.code text])

mutual

def outlined (recur : Recur) : Statement → LowerM Outlined
  | .assign left right => single (assign recur left right)
  | .block components annotations => do
    let lock ← if annotations.contains Statement.atomicMark then controlLock else pure none
    let parts ← outlinedParts recur components
    let c ← config
    return (blockText c lock (parts.map Prod.fst), blockScript c lock (parts.map Prod.snd))
  | .cond condition ifTrue ifFalse => do
    let t ← outlinedBody recur ifTrue
    let f ← outlinedBody recur ifFalse
    let c ← recur condition .value
    let style := (← config).indentation
    let c := if Text.isBlank c then "true" else c
    return (condText style c t.1 f.1, condScript c t.2 f.2)
  | .call e => single (runCall recur e)
  | .switch selector cases => do
    let s ← recur selector .value
    let arms ← outlinedArms recur cases
    let style := (← config).indentation
    return (switchText style s (arms.map ArmScript.arm), switchScript s arms)
  | .decl id => single (declaration recur id none)
  | .empty => single (return ";")

def outlinedParts (recur : Recur) : List Statement → LowerM (List Outlined)
  | [] => return []
  | s :: rest => do
    let part ← enclosedScript (outlined recur s)
    return part :: (← outlinedParts recur rest)

def outlinedBody (recur : Recur) : Option Statement → LowerM Outlined
  | none => single (return ";")
  | some s => enclosedScript (outlined recur s)

def outlinedArms (recur : Recur) : List (SwitchArm Statement) → LowerM (List ArmScript)
  | [] => return []
  | ⟨label, body⟩ :: rest => do
    let label ← caseLabel recur label
    let body ← outlinedBody recur body
    return ⟨⟨label, body.1⟩, body.2⟩ :: (← outlinedArms recur rest)

end

/-! ### The text is the one of lowering -/

theorem framed_map {α β : Type} (f : α → β) (x : LowerM α) :
    framed (f <$> x) = (fun q => (f q.1, q.2)) <$> framed x := by
  funext env s
  rw [map_eq_pure_bind, map_eq_pure_bind, run_bind, run_framed, run_framed, run_bind]
  rcases x env s.push with ⟨_ | _, _⟩ <;> rfl

theorem fst_single (x : LowerM String) : Prod.fst <$> single x = x := by
  simp [single]

theorem fst_enclosedScript (x : LowerM Outlined) :
    Prod.fst <$> enclosedScript x = enclosed (Prod.fst <$> x) := by
  rw [enclosed, framed_map]
  simp [enclosedScript]

mutual

theorem fst_outlined (recur : Recur) :
    ∀ s : Statement, Prod.fst <$> outlined recur s = statement recur s
  | .assign left right | .call e | .decl id | .empty => by
    rw [outlined, statement, fst_single]
  | .block components annotations => by
    simp only [outlined, statement, ← fst_outlinedParts recur components, bind_map_left]
    split <;> simp only [map_bind, map_pure]
  | .cond condition ifTrue ifFalse => by
    simp only [outlined, statement, ← fst_outlinedBody recur ifTrue,
      ← fst_outlinedBody recur ifFalse, map_bind, map_pure, bind_map_left]
  | .switch selector cases => by
    simp only [outlined, statement, ← fst_outlinedArms recur cases, map_bind, map_pure,
      bind_map_left]

theorem fst_outlinedParts (recur : Recur) :
    ∀ l : List Statement, List.map Prod.fst <$> outlinedParts recur l = blockParts recur l
  | [] => by simp only [outlinedParts, blockParts, map_pure, List.map_nil]
  | s :: rest => by
    simp only [outlinedParts, blockParts, ← fst_outlined recur s, ← fst_enclosedScript,
      ← fst_outlinedParts recur rest, map_bind, map_pure, bind_map_left, List.map_cons]

theorem fst_outlinedBody (recur : Recur) :
    ∀ s : Option Statement, Prod.fst <$> outlinedBody recur s = nested recur s
  | none => by rw [outlinedBody, nested, fst_single]
  | some s => by rw [outlinedBody, nested, fst_enclosedScript, fst_outlined recur s]

theorem fst_outlinedArms (recur : Recur) :
    ∀ l : List (SwitchArm Statement),
      List.map ArmScript.arm <$> outlinedArms recur l = switchArms recur l
  | [] => by simp only [outlinedArms, switchArms, map_pure, List.map_nil]
  | ⟨label, body⟩ :: rest => by
    simp only [outlinedArms, switchArms, ← fst_outlinedBody recur body,
      ← fst_outlinedArms recur rest, map_bind, map_pure, bind_map_left, List.map_cons]

end

/-! ### The text reads as its script -/

/-- The text has the words of the script, in the same order. -/
def Outlined.Reads (o : Outlined) : Prop := words o.1 = Script.words o.2

theorem reads_single {env : Env} {x : LowerM String} {o : Outlined}
    (h : Returns env (single x) o) : o.Reads := by
  obtain ⟨text, _, h⟩ := h.of_bind
  rw [← h.of_pure]
  simp [Outlined.Reads]

theorem words_bodyText (text : String) (frame : Frame) :
    words (bodyText text frame) =
      frame.pre.flatMap words ++ words text ++ frame.post.flatMap words := by
  have hstacked : words (stacked (frame.pre ++ text :: frame.post)) =
      frame.pre.flatMap words ++ words text ++ frame.post.flatMap words := by
    simp [words_stacked]
  rw [bodyText, ← hstacked]
  split
  · rename_i hempty
    rw [String.isEmpty_iff.1 hempty]
    decide
  · rfl

theorem reads_enclosedScript {env : Env} {x : LowerM Outlined}
    (hx : ∀ o, Returns env x o → o.Reads) {o : Outlined} (h : Returns env (enclosedScript x) o) :
    o.Reads := by
  obtain ⟨⟨⟨text, script⟩, frame⟩, hframed, h⟩ := h.of_bind
  rw [← h.of_pure]
  have hinner : Returns env x (text, script) := by
    obtain ⟨s, s', hs⟩ := hframed
    obtain ⟨u, hu, _⟩ := exists_of_framed hs
    exact ⟨_, u, hu⟩
  have hwords : words text = Script.words script := hx _ hinner
  rw [Outlined.Reads, words_bodyText, Script.words_nestled, Script.words_enframed, hwords]

theorem reads_block (c : Config) (lock : Option String) {parts : List Outlined}
    (h : ∀ o ∈ parts, o.Reads) :
    words (blockText c lock (parts.map Prod.fst)) =
      Script.words (blockScript c lock (parts.map Prod.snd)) := by
  have hparts : (parts.map Prod.fst).flatMap words =
      Script.words (parts.map Prod.snd).flatten := by
    induction parts with
    | nil => rfl
    | cons o parts ih =>
      have ho : words o.1 = Script.words o.2 := h o (.head parts)
      rw [List.map_cons, List.flatMap_cons, List.map_cons, List.flatten_cons, Script.words_append,
        ho, ih fun q hq => h q (.tail o hq)]
  cases lock with
  | none => rw [blockText, words_stacked, hparts]; rfl
  | some lock =>
    simp only [blockText, blockScript, words_stacked, List.flatMap_cons, List.flatMap_append,
      List.cons_append, List.flatMap_nil, hparts, Script.words_cons, Script.words_append,
      Script.words_code, Script.words_nil]

theorem reads_cond (style : Indentation) (c : String) {t f : Outlined} (ht : t.Reads)
    (hf : f.Reads) : words (condText style c t.1 f.1) = Script.words (condScript c t.2 f.2) := by
  have ht : words t.1 = Script.words t.2 := ht
  have hf : words f.1 = Script.words f.2 := hf
  rw [words_reading.condText, ht, hf]
  simp [condScript]

theorem words_head (a : Arm) : words a.head = Script.words (labelScript a.label) := by
  obtain ⟨label, body⟩ := a
  cases label with
  | none => simp [Arm.head, labelScript]
  | some label =>
    have hsplit : (Arm.mk (some label) body).head = "case " ++ (label ++ ":") :=
      String.append_assoc ..
    rw [hsplit, words_append (.inl (by decide))]
    simp [labelScript]

theorem reads_switch (style : Indentation) (s : String) {arms : List ArmScript}
    (h : ∀ a ∈ arms, words a.arm.body = Script.words a.body) :
    words (switchText style s (arms.map ArmScript.arm)) =
      Script.words (switchScript s arms) := by
  have harms : (arms.map ArmScript.arm).flatMap (Text.Reading.arm words) =
      Script.words (arms.flatMap ArmScript.script) := by
    induction arms with
    | nil => rfl
    | cons a arms ih =>
      rw [List.map_cons, List.flatMap_cons, List.flatMap_cons, Script.words_append,
        ih fun b hb => h b (.tail a hb), Text.Reading.arm, words_head, h a (.head arms)]
      simp [ArmScript.script]
  rw [words_reading.switchText, harms, List.any_map]
  simp only [switchScript, Function.comp_def]
  split <;> simp

mutual

theorem reads_outlined {env : Env} {recur : Recur} : ∀ (s : Statement) {o : Outlined},
    Returns env (outlined recur s) o → o.Reads
  | .assign left right, o, h | .call e, o, h | .decl id, o, h | .empty, o, h => by
    rw [outlined] at h
    exact reads_single h
  | .block components annotations, o, h => by
    rw [outlined] at h
    have hblock : ∀ lock, Returns env (do
        let parts ← outlinedParts recur components
        let c ← config
        return (blockText c lock (parts.map Prod.fst), blockScript c lock (parts.map Prod.snd))) o →
        o.Reads := by
      intro lock h
      obtain ⟨parts, hparts, h⟩ := h.of_bind
      obtain ⟨c, _, h⟩ := h.of_bind
      rw [← h.of_pure]
      exact reads_block c lock (reads_outlinedParts components hparts)
    split at h
    · obtain ⟨lock, _, h⟩ := h.of_bind
      exact hblock lock h
    · exact hblock none h
  | .cond condition ifTrue ifFalse, o, h => by
    rw [outlined] at h
    obtain ⟨t, ht, h⟩ := h.of_bind
    obtain ⟨f, hf, h⟩ := h.of_bind
    obtain ⟨c, _, h⟩ := h.of_bind
    obtain ⟨_, _, h⟩ := h.of_bind
    rw [← h.of_pure]
    exact reads_cond _ _ (reads_outlinedBody ifTrue ht) (reads_outlinedBody ifFalse hf)
  | .switch selector cases, o, h => by
    rw [outlined] at h
    obtain ⟨s, _, h⟩ := h.of_bind
    obtain ⟨arms, harms, h⟩ := h.of_bind
    obtain ⟨_, _, h⟩ := h.of_bind
    rw [← h.of_pure]
    exact reads_switch _ _ (reads_outlinedArms cases harms)

theorem reads_outlinedParts {env : Env} {recur : Recur} : ∀ (l : List Statement)
    {parts : List Outlined}, Returns env (outlinedParts recur l) parts → ∀ o ∈ parts, o.Reads
  | [], parts, h => by
    rw [outlinedParts] at h
    rw [← h.of_pure]
    exact nofun
  | s :: rest, parts, h => by
    rw [outlinedParts] at h
    obtain ⟨part, hpart, h⟩ := h.of_bind
    obtain ⟨others, hothers, h⟩ := h.of_bind
    rw [← h.of_pure, List.forall_mem_cons]
    exact ⟨reads_enclosedScript (fun _ => reads_outlined s) hpart, reads_outlinedParts rest hothers⟩

theorem reads_outlinedBody {env : Env} {recur : Recur} : ∀ (s : Option Statement) {o : Outlined},
    Returns env (outlinedBody recur s) o → o.Reads
  | none, o, h => by
    rw [outlinedBody] at h
    exact reads_single h
  | some s, o, h => by
    rw [outlinedBody] at h
    exact reads_enclosedScript (fun _ => reads_outlined s) h

theorem reads_outlinedArms {env : Env} {recur : Recur} : ∀ (l : List (SwitchArm Statement))
    {arms : List ArmScript}, Returns env (outlinedArms recur l) arms →
      ∀ a ∈ arms, words a.arm.body = Script.words a.body
  | [], arms, h => by
    rw [outlinedArms] at h
    rw [← h.of_pure]
    exact nofun
  | ⟨label, body⟩ :: rest, arms, h => by
    rw [outlinedArms] at h
    obtain ⟨text, _, h⟩ := h.of_bind
    obtain ⟨inner, hinner, h⟩ := h.of_bind
    obtain ⟨others, hothers, h⟩ := h.of_bind
    rw [← h.of_pure, List.forall_mem_cons]
    exact ⟨reads_outlinedBody body hinner, reads_outlinedArms rest hothers⟩

end

end PacketC.Lower

namespace PacketC.Session

open Code Lower

/-- The script of a statement, with the code that runs before and after it. -/
def script (s : Session) (p : Program) (stmt : Statement) (block : Option BlockId) : Script :=
  match outlined expr stmt (s.env p block) s.initial with
  | (.ok (_, script), state) =>
    enframed state.emission.gathered.pre script state.emission.gathered.post
  | (.error _, _) => []

/-- A statement that is lowered has a script, and leaves the state that its script leaves. -/
theorem exists_outlined {s s' : Session} {p : Program} {stmt : Statement} {block : Option BlockId}
    {f : Fragment} (h : s.lowerStatement p stmt block = (.ok f, s')) :
    ∃ script state, outlined expr stmt (s.env p block) s.initial =
        (.ok (f.text, script), state) ∧
      f.pre = state.emission.gathered.pre ∧ f.post = state.emission.gathered.post ∧
      s' = { s with memory := state.memory } := by
  obtain ⟨text, state, hrun, rfl, rfl⟩ := exists_of_run h
  rw [← fst_outlined, map_eq_pure_bind] at hrun
  obtain ⟨⟨text', script⟩, t, ht, hrun⟩ := exists_of_bind hrun
  cases hrun
  exact ⟨script, _, ht, rfl, rfl, rfl⟩

/-- The rendered fragment reads word for word as its script. -/
theorem words_render {s s' : Session} {p : Program} {stmt : Statement} {block : Option BlockId}
    {f : Fragment} (h : s.lowerStatement p stmt block = (.ok f, s')) :
    words f.render = (s.script p stmt block).words := by
  obtain ⟨script, state, hrun, hpre, hpost, -⟩ := exists_outlined h
  have hreads : words f.text = Script.words script := reads_outlined stmt ⟨_, _, hrun⟩
  rw [Session.script, hrun, Fragment.render, words_stacked, Fragment.pieces, hpre, hpost]
  simp only [Script.words_enframed, List.flatMap_append, List.flatMap_cons, hreads,
    List.append_assoc]

end PacketC.Session
