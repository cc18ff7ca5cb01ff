import PacketC.Proofs.Lists.FirstMet
import PacketC.Proofs.Lists.Sharing

/-! Buffers in scope. In the code of a statement whose parts keep a list, the buffer of the list is
assembled before it is used: in the same frame, or in one around it. A list that is shared by frames
of which none is inside the other is assembled in the one that is lowered first, and the others are
left without it. -/

namespace PacketC

open Code

namespace Lower

variable {α β : Type} {env : Env} {W : Watch} {l m : List Part}

/-! ### Frames -/

theorem Watch.Assembled.backed {s : State} {body : Script} (h : W.Assembled s)
    (hbody : Backed W.word W.code true body true) : Backed W.word W.code false
      (enframed s.emission.current.pre body s.emission.current.post) true := by
  obtain ⟨before, after, heq, hclean⟩ := h
  rw [heq]
  exact .enframed_of_mem hclean hbody

theorem Watch.Untouched.backed {s : State} {body : Script} (h : W.Untouched s)
    (hbody : Backed W.word W.code false body false) : Backed W.word W.code false
      (enframed s.emission.current.pre body s.emission.current.post) false :=
  .enframed (fun c hc hm => absurd hm (h.pre c hc)) hbody fun c hc hm => absurd hm (h.post c hc)

/-! ### Parts -/

/-- No part can come to the watched list. -/
def Watch.Unused (W : Watch) (p : Program) (parts : List Part) : Prop :=
  ∀ part ∈ parts, ¬ part.Uses p W.list

/-- The parts to come do without the list, or keep it and are the first to meet it. -/
def Watch.Plans (W : Watch) (env : Env) (parts : List Part) (s : State) : Prop :=
  W.Unused env.program parts ∨ W.list ∉ s.memory.generated ∧ Keeps env W.list parts

/-- The action lowers the parts. Where no code mentions the name so far, it assembles the buffer or
yields what is in order without it. `P d` says what is in order where the buffer is there if `d`. -/
structure Walks (env : Env) (W : Watch) (parts : List Part) (x : LowerM α) (P : Bool → α → Prop) :
    Prop where
  goes : ∀ {s a t}, x env s = (.ok a, t) → W.Goes (W.Unused env.program parts) s t
  always : ∀ {a}, Returns env x a → P true a
  run : ∀ {s a t rest}, x env s = (.ok a, t) → s.memory.names.Sound →
    t.memory.names.Extends W.final → W.Untouched s → W.Plans env (parts ++ rest) s →
    W.Assembled t ∨ W.Untouched t ∧ W.Plans env rest t ∧ P false a

namespace Walks

variable {P : Bool → α → Prop} {Q : Bool → β → Prop} {x : LowerM α}

theorem bind {f : α → LowerM β} (hx : Walks env W l x P)
    (hf : ∀ a, Returns env x a → Walks env W m (f a) fun d b => P d a → Q d b) :
    Walks env W (l ++ m) (x >>= f) Q where
  goes h := by
    obtain ⟨a, u, hu, h⟩ := exists_of_bind h
    refine ((hx.goes hu).mono fun hall part hpart => ?_).trans
      (((hf a ⟨_, _, hu⟩).goes h).mono fun hall part hpart => ?_)
    · exact hall part (List.mem_append_left _ hpart)
    · exact hall part (List.mem_append_right _ hpart)
  always h := by
    obtain ⟨a, ha, h⟩ := h.of_bind
    exact (hf a ha).always h (hx.always ha)
  run {s b t rest} h hs hext huntouched hplans := by
    obtain ⟨a, u, hu, h⟩ := exists_of_bind h
    have hfa := hf a ⟨s, u, hu⟩
    have hext' := (hfa.goes h).memory.names.trans hext
    rw [List.append_assoc] at hplans
    rcases hx.run hu hs hext' huntouched hplans with hassembled | ⟨huntouched, hplans, hP⟩
    -- what is in the frame stays there, so nothing is asked of the parts that follow
    · exact .inl (hassembled.of_grown (hfa.goes h).emission.pre)
    · have hrun := hfa.run h ((hx.goes hu).sound hs) hext huntouched hplans
      exact hrun.imp_right fun h => ⟨h.1, h.2.1, h.2.2 hP⟩

theorem last {f : α → LowerM β} (hx : Walks env W l x P)
    (hf : ∀ a, Returns env x a → Walks env W [] (f a) fun d b => P d a → Q d b) :
    Walks env W l (x >>= f) Q := List.append_nil l ▸ bind hx hf

theorem conseq {P' : Bool → α → Prop} (hx : Walks env W l x P) (h : ∀ d a, P d a → P' d a) :
    Walks env W l x P' where
  goes := hx.goes
  always ha := h true _ (hx.always ha)
  run hrun hs hext huntouched hplans := (hx.run hrun hs hext huntouched hplans).imp_right fun ht =>
    ⟨ht.1, ht.2.1, h false _ ht.2.2⟩

theorem inEnv {y : LowerM α} (h : x env = y env) (hy : Walks env W l y P) : Walks env W l x P where
  goes hx := hy.goes (h ▸ hx)
  always hx := hy.always (by obtain ⟨s, t, hx⟩ := hx; exact ⟨s, t, h ▸ hx⟩)
  run hx := hy.run (h ▸ hx)

theorem config {f : Config → LowerM β} (k : Walks env W l (f env.config) Q) :
    Walks env W l (Lower.config >>= f) Q := inEnv (bind_of_pure rfl) k

theorem pure {a : α} (h : ∀ d, P d a) : Walks env W [] (Pure.pure a) P where
  goes h := by
    cases h
    exact .refl ..
  always ha := ha.of_pure ▸ h true
  run hrun _ _ huntouched hplans := by
    cases hrun
    exact .inr ⟨huntouched, hplans, h false⟩

/-- An action in the frame itself. -/
theorem of_spares (hx : Spares env W (W.Unused env.program l) True x (P false))
    (halways : ∀ a, P true a)
    (hnext : ∀ {s a t rest}, x env s = (.ok a, t) → W.list ∉ t.memory.generated → Keeps env W.list
      (l ++ rest) → Keeps env W.list rest) : Walks env W l x P where
  goes h := (hx.later h).toGoes
  always _ := halways _
  run {s a t rest} h hs hext huntouched hplans := by
    have hunused : W.Unused env.program (l ++ rest) → W.Unused env.program l :=
      fun hall part hpart => hall part (List.mem_append_left _ hpart)
    have hunmet : W.list ∈ s.memory.generated → W.Unused env.program l := fun hmem =>
      hplans.elim hunused fun hkeeps => absurd hmem hkeeps.1
    rcases hx.run h hs hext (.inr ⟨⟨huntouched, hunmet⟩, trivial⟩) with hbuilt | ⟨hcalm, hP⟩
    · exact .inl hbuilt.assembled
    · refine .inr ⟨hcalm.toUntouched, hplans.imp (fun hall part hpart => ?_) fun hkeeps => ?_, hP⟩
      · exact hall part (List.mem_append_right _ hpart)
      -- a list that the action has met is assembled, unless the parts cannot come to it at all
      · have hnot : W.list ∉ t.memory.generated := fun hmem =>
          hkeeps.1 ((hx.later h).idle (hcalm.unmet hmem) hmem)
        exact ⟨hnot, hnext h hnot hkeeps.2⟩

end Walks

/-- An expression of the statement. -/
theorem head_walks (hW : W.Fits env.toTypeScope) (id : ExprId) :
    Walks env W [.head id] (expr id .value) fun d text => Covered W.word (d = true) text := by
  have hspares : Spares env W (W.Unused env.program [.head id]) True (expr id .value) W.Clean :=
    expr_spares hW (fun hunused => hunused _ (.head _)) .value
  refine .of_spares (hspares.conseq fun _ h hm => absurd hm h) (fun _ _ => rfl) ?_
  intro s text t rest h hnot hkeeps
  cases hkeeps with
  | needed hneeds => exact absurd (hneeds _ _ _ h) hnot
  | head hrest => exact hrest

/-- A list is met where it is lowered. -/
theorem Needs.self (wf : env.program.WellFormed) {id : ExprId} {e : Expr} {items : List ExprId}
    (he : env.At id e) (hnode : e.node = .list items) : Needs env id id := by
  intro s t text h
  rw [expr_eq_nodeText wf he, nodeText, hnode] at h
  rw [← wf.id_eq he]
  rcases cases_of_bufferText h with ⟨hmem, rfl⟩ | ⟨_, code, ds, _, rfl⟩
  · exact hmem
  · exact .head _

theorem Needs.label (wf : env.program.WellFormed) {e id : ExprId} (h : Needs env e id)
    {s t : State} {label : Option String} (hrun : caseLabel expr id env s = (.ok label, t)) :
    e ∈ t.memory.generated := by
  cases hid : env.program.expr id with
  | error err =>
    rw [caseLabel, run_bind, look_of_error hid] at hrun
    cases hrun
  | ok x =>
    rw [caseLabel, bind_of_pure (look_of_ok hid)] at hrun
    -- the default has no label, but it is not needed by any list either
    obtain ⟨y, hy, hrun⟩ : ∃ y : LowerM (Option String), y = _ ∧ y env s = (.ok label, t) :=
      ⟨_, rfl, hrun⟩
    split at hy <;> subst hy
    · rename_i hnode
      cases hrun
      refine h s s "" ?_
      rw [expr_eq_nodeText wf hid, nodeText, hnode]
      rfl
    · obtain ⟨text, u, hu, hrun⟩ := exists_of_bind hrun
      have hmem := h s u text hu
      split at hrun <;> cases hrun <;> exact hmem

theorem label_walks (hW : W.Fits env.toTypeScope) (id : ExprId) :
    Walks env W [.head id] (caseLabel expr id) fun d label =>
      ∀ text ∈ label, Covered W.word (d = true) text := by
  have hspares : Spares env W (W.Unused env.program [.head id]) True (caseLabel expr id)
      fun label => ∀ text ∈ label, W.Clean text :=
    caseLabel_spares hW (expr_spares hW) fun hunused => hunused _ (.head _)
  refine .of_spares (hspares.conseq fun _ h text ht hm => absurd hm (h text ht))
    (fun _ _ _ _ => rfl) ?_
  intro s label t rest h hnot hkeeps
  cases hkeeps with
  | needed hneeds => exact absurd (hneeds.label hW.wellFormed h) hnot
  | head hrest => exact hrest

/-! ### Statements -/

/-- With the code of its frame around it, the script of the statement is in order, if the statement
does without the list, or its parts keep it and are the first to meet it. -/
structure Stands (env : Env) (W : Watch) (stmt : Statement) (x : LowerM Outlined) : Prop where
  goes : ∀ {s o t}, x env s = (.ok o, t) → W.Goes (¬ stmt.Uses env.program W.list) s t
  always : ∀ {o}, Returns env x o → Backed W.word W.code true o.2 true
  run : ∀ {s o t}, x env s = (.ok o, t) → s.memory.names.Sound → t.memory.names.Extends W.final →
    W.Untouched s →
    ¬ stmt.Uses env.program W.list ∨ W.list ∉ s.memory.generated ∧ Keeps env W.list stmt.parts →
    ∃ d, Backed W.word W.code false
      (enframed t.emission.current.pre o.2 t.emission.current.post) d

variable {stmt : Statement}

theorem Walks.stands {x : LowerM Outlined}
    (hx : Walks env W stmt.parts x fun d o => Backed W.word W.code d o.2 d) :
    Stands env W stmt x := by
  have hunused : ¬ stmt.Uses env.program W.list → W.Unused env.program stmt.parts :=
    fun hnot part hpart h => hnot (.of_part hpart h)
  refine ⟨fun h => (hx.goes h).mono hunused, hx.always, ?_⟩
  intro s o t h hs hext huntouched hplans
  have hplans : W.Plans env (stmt.parts ++ []) s := by
    rw [List.append_nil]
    exact hplans.imp_left hunused
  rcases hx.run h hs hext huntouched hplans with hassembled | ⟨huntouched, _, hbacked⟩
  · exact ⟨true, hassembled.backed (hx.always ⟨s, t, h⟩)⟩
  · exact ⟨false, huntouched.backed hbacked⟩

/-- A statement without statements in it is one piece in its frame. -/
theorem single_stands {x : LowerM String}
    (hx : Spares env W (¬ stmt.Uses env.program W.list) True x W.Clean) :
    Stands env W stmt (single x) where
  goes h := by
    obtain ⟨text, u, hu, h⟩ := exists_of_bind h
    cases h
    exact (hx.later hu).toGoes
  always h := by
    obtain ⟨text, _, h⟩ := h.of_bind
    rw [← h.of_pure]
    exact .uses fun _ => rfl
  run {s o t} h hs hext huntouched hplans := by
    obtain ⟨text, u, hu, h⟩ := exists_of_bind h
    cases h
    have hunmet : W.list ∈ s.memory.generated → ¬ stmt.Uses env.program W.list := fun hmem =>
      hplans.resolve_right fun hkeeps => hkeeps.1 hmem
    rcases hx.run hu hs hext (.inr ⟨⟨huntouched, hunmet⟩, trivial⟩) with hbuilt | ⟨hcalm, hclean⟩
    · exact ⟨true, hbuilt.assembled.backed (.uses fun _ => rfl)⟩
    · exact ⟨false, hcalm.backed (.clean hclean)⟩

/-- A statement in a frame of its own leaves the frame around it as it was. -/
theorem Stands.enclosed {x : LowerM Outlined} (hx : Stands env W stmt x) :
    Walks env W [.body stmt] (enclosedScript x) fun d o => Backed W.word W.code d o.2 d := by
  have hclosed := fun {s t o} (h : enclosedScript x env s = (.ok o, t)) =>
    exists_of_enclosedScript (fun hs => (hx.goes hs).emission.outer) h
  refine ⟨fun h => ?_, fun {o} h => ?_, fun {s o t rest} h hs hext huntouched hplans => ?_⟩
  · obtain ⟨q, u, hu, rfl, _⟩ := hclosed h
    have hgoes := hx.goes hu
    exact ⟨hgoes.memory, .refl _, hgoes.sound, fun hunused => hgoes.idle (hunused _ (.head _))⟩
  · obtain ⟨s, t, h⟩ := h
    obtain ⟨q, u, hu, rfl, ho⟩ := hclosed h
    rw [ho]
    exact (Backed.enframed (fun _ _ _ => rfl) (hx.always ⟨_, _, hu⟩) fun _ _ _ => rfl).nestled
  · obtain ⟨q, u, hu, rfl, ho⟩ := hclosed h
    have hinner : ¬ stmt.Uses env.program W.list ∨
        W.list ∉ s.memory.generated ∧ Keeps env W.list stmt.parts := by
      rcases hplans with hunused | ⟨hnot, hkeeps⟩
      · exact .inl (hunused _ (.head _))
      · cases hkeeps with
        | unused hunused => exact .inl hunused
        | body hkeeps => exact .inr ⟨hnot, hkeeps⟩
    obtain ⟨d, hd⟩ := hx.run hu hs hext ⟨nofun, nofun⟩ hinner
    -- the frame around has nothing of the buffer, so what follows must do without the list if it
    -- may have been met in here
    refine .inr ⟨⟨huntouched.pre, huntouched.post⟩, ?_, ho ▸ hd.nestled⟩
    rcases hplans with hunused | ⟨hnot, hkeeps⟩
    · exact .inl fun part hpart => hunused part (.tail _ hpart)
    · cases hkeeps with
      | unused hunused hrest =>
        exact .inr ⟨fun hmem => hnot ((hx.goes hu).idle hunused hmem), hrest⟩
      | body _ hrest => exact .inl hrest

theorem semicolon_walks (hW : W.Fits env.toTypeScope) :
    Walks env W [] (single (return ";")) fun d o => Backed W.word W.code d o.2 d :=
  .pure fun _ => .clean (hW.numbered.not_mentions (by decide))

mutual

theorem outlined_stands (hW : W.Fits env.toTypeScope) :
    ∀ stmt : Statement, Stands env W stmt (outlined expr stmt)
  | .assign left right => by
    rw [outlined]
    refine single_stands (assign_spares hW (expr_spares hW) (fun hnot hr => hnot ⟨left, ?_, hr⟩)
      fun hnot hr => hnot ⟨right, ?_, hr⟩)
    · exact .inr ⟨_, .self _, .head _⟩
    · exact .inr ⟨_, .self _, .tail _ (.head _)⟩
  | .call e => by
    rw [outlined]
    refine single_stands (runCall_spares hW (expr_spares hW) fun hnot hr => hnot ⟨e, ?_, hr⟩)
    exact .inr ⟨_, .self _, .head _⟩
  | .decl id => by
    rw [outlined]
    refine single_stands (declaration_spares hW (expr_spares hW) (fun _ h => by cases h) ?_)
    exact fun d e hd he hnot hr => hnot ⟨e, .inl ⟨id, d, .self _, hd, he⟩, hr⟩
  | .empty => by
    rw [outlined]
    exact single_stands (.pure fun _ => hW.numbered.not_mentions (by decide))
  | .block components annotations => by
    have hparts := outlinedParts_walks hW components
    have hblock : ∀ lock : Option String, (∀ name ∈ lock, W.Clean name) →
        Walks env W (Statement.block components annotations).parts (do
          let parts ← outlinedParts expr components
          let c ← config
          return (blockText c lock (parts.map Prod.fst), blockScript c lock (parts.map Prod.snd)) :
            LowerM Outlined) fun d o => Backed W.word W.code d o.2 d := by
      intro lock hlock
      refine .last hparts fun parts _ => .config (.pure fun d hd => ?_)
      refine backed_block hW.toForeign hlock fun part hpart => ?_
      obtain ⟨o, ho, rfl⟩ := List.mem_map.1 hpart
      exact hd o ho
    rw [outlined]
    refine Walks.stands ?_
    split
    · have hlock : Walks env W [] controlLock fun _ _ => True :=
        .of_spares ((controlLock_spares hW).conseq fun _ _ => trivial) (fun _ => trivial)
          fun _ _ hkeeps => hkeeps
      refine .bind hlock fun lock hret => (hblock lock ?_).conseq fun _ _ h _ => h
      exact bare_of_controlLock (M := hW.manner True) hret
    · exact hblock none nofun
  | .cond condition ifTrue ifFalse => by
    rw [outlined]
    refine Walks.stands (.bind (outlinedBody_walks hW ifTrue) fun t _ =>
      .bind (outlinedBody_walks hW ifFalse) fun f _ => .last (head_walks hW condition) fun c _ =>
        .config (.pure fun d hc hf ht => ?_))
    refine backed_cond hW.numbered ?_ ht hf
    split
    · exact covered_of_all hW.numbered (by decide)
    · exact hc
  | .switch selector cases => by
    rw [outlined]
    refine Walks.stands (.bind (l := [.head selector]) (head_walks hW selector) fun text _ =>
      .last (outlinedArms_walks hW cases) fun arms _ => .config (.pure fun d harms htext => ?_))
    exact backed_switch hW.numbered htext harms

theorem outlinedParts_walks (hW : W.Fits env.toTypeScope) : ∀ l : List Statement,
    Walks env W (l.map .body) (outlinedParts expr l) fun d parts =>
      ∀ o ∈ parts, Backed W.word W.code d o.2 d
  | [] => by
    rw [outlinedParts]
    exact .pure fun _ => nofun
  | stmt :: rest => by
    rw [outlinedParts]
    refine .bind (l := [.body stmt]) (outlined_stands hW stmt).enclosed fun part _ =>
      .last (outlinedParts_walks hW rest) fun parts _ => .pure fun d hparts hpart => ?_
    exact List.forall_mem_cons.2 ⟨hpart, hparts⟩

theorem outlinedBody_walks (hW : W.Fits env.toTypeScope) : ∀ body : Option Statement,
    Walks env W (body.toList.map .body) (outlinedBody expr body) fun d o =>
      Backed W.word W.code d o.2 d
  | none => by
    rw [outlinedBody]
    exact semicolon_walks hW
  | some stmt => by
    rw [outlinedBody]
    exact (outlined_stands hW stmt).enclosed

theorem outlinedArms_walks (hW : W.Fits env.toTypeScope) : ∀ l : List (SwitchArm Statement),
    Walks env W (l.flatMap fun a => .head a.label :: a.body.toList.map .body) (outlinedArms expr l)
      fun d arms => ∀ a ∈ arms, a.Backed W.word W.code d
  | [] => by
    rw [outlinedArms]
    exact .pure fun _ => nofun
  | ⟨label, body⟩ :: rest => by
    rw [outlinedArms]
    refine .bind (l := [.head label]) (label_walks hW label) fun text _ =>
      .bind (outlinedBody_walks hW body) fun inner _ =>
        .last (outlinedArms_walks hW rest) fun arms _ => .pure fun d harms hinner htext => ?_
    exact List.forall_mem_cons.2 ⟨⟨htext, hinner⟩, harms⟩

end

end Lower

/-! ### Sessions -/

open Lower

/-- A name that was handed out for the buffer of a list, and that occurs in nothing else the code is
written with. -/
structure BufferName (scope : TypeScope) (supply : NameSupply) (id : ExprId) (n : String) : Prop
    extends Unsaid scope n where
  named : supply.memo.lookup ("buffer", id.text) = some n
  others : ∀ m ∈ supply.used, m ≠ n → ¬ Mentions n m

variable {supply : NameSupply} {id : ExprId} {n : String}

theorem NameSupply.Sound.numbered_buffer (h : supply.Sound)
    (hn : supply.memo.lookup ("buffer", id.text) = some n) : Numbered n := by
  rcases h.derived _ _ _ hn with rfl | ⟨k, rfl⟩
  · exact numbered_joined "buffer" id.index
  · exact numbered_joined _ k

theorem NameSupply.Sound.buffer_ne_state (h : supply.Sound)
    (hn : supply.memo.lookup ("buffer", id.text) = some n) :
    ¬ "parser_state_".toList <+: n.toList := by
  rcases h.derived _ _ _ hn with rfl | ⟨k, rfl⟩ <;> intro hstem <;>
    simp [joined, numbered] at hstem

theorem BufferName.fits {scope : TypeScope} {e : Expr} {items : List ExprId} {code : String}
    (h : BufferName scope supply id n) (hsound : supply.Sound) (wf : scope.program.WellFormed)
    (he : scope.program.expr id = .ok e) (hnode : e.node = .list items)
    (hcode : scope.program.assembly id n = some code) : (Watch.mk id n code supply).Fits scope where
  toUnsaid := h.toUnsaid
  numbered := hsound.numbered_buffer h.named
  wellFormed := wf
  stem := hsound.buffer_ne_state h.named
  node := ⟨e, items, he, hnode⟩
  sound := hsound
  others m hm hne := h.others m hm fun heq => hne (heq ▸ h.named)
  code name hname := by
    cases h.named.symm.trans hname
    exact hcode

namespace Session

variable {config : Config} {p : Program} {stmt : Statement} {block : Option BlockId} {f : Fragment}
  {s' : Session} {id : ExprId} {e : Expr} {items : List ExprId} {n : String}

/-- If the parts of a statement keep a list, then wherever the code mentions the buffer of the list,
the code of the buffer stands in front of it, in the same frame or in one around it. -/
theorem buffer_in_scope (hvalid : p.validate = .ok ()) (he : p.expr id = .ok e)
    (hnode : e.node = .list items)
    (h : (start config).lowerStatement p stmt block = (.ok f, s'))
    (hn : BufferName ((start config).scope p) s'.names id n)
    (hkeeps : Keeps ⟨(start config).scope p, block⟩ id stmt.parts) :
    ∃ code, p.assembly id n = some code ∧
      words f.render = ((start config).script p stmt block).words ∧
      InScope n code ((start config).script p stmt block) := by
  have wf : p.WellFormed := .of_validate hvalid
  obtain ⟨code, hcode⟩ := exists_assembly wf he hnode n
  refine ⟨code, hcode, words_render h, ?_⟩
  have hreachable := (Reachable.start config).lower p block (.stmt stmt)
  have hsound : s'.names.Sound := by
    have hs' : (Task.stmt stmt).lower (start config) p block = (.ok f, s') := h
    rw [hs'] at hreachable
    exact hreachable.sound
  obtain ⟨script, state, hrun, -, -, rfl⟩ := exists_outlined h
  have hstands : Stands ⟨(start config).scope p, block⟩ ⟨id, n, code, state.memory.names⟩ stmt
      (outlined expr stmt) := outlined_stands (hn.fits hsound wf he hnode hcode) stmt
  obtain ⟨d, hd⟩ := hstands.run hrun .empty (.refl _) ⟨nofun, nofun⟩ (.inr ⟨nofun, hkeeps⟩)
  rw [Session.script, hrun]
  dsimp only
  rw [(hstands.goes hrun).emission.gathered_eq]
  exact hd.inScope

/-- A list with a field is logged. -/
def sharedLog : Program where
  exprs := #[.packet, .packetHeader, .packetField 2 (.bits 8 false) "f" 0, .list 3 [⟨2⟩],
    .declared 4 .void "log" 0, .called 5 4 [⟨3⟩], ⟨⟨6⟩, .bool, .bool true⟩, ⟨⟨7⟩, .void, .default⟩]
  decls := #[⟨"log", .function ⟨"log", [], [⟨"data", .into, .bool⟩], .void⟩⟩]
  typeDecls := #[⟨"t", .header [⟨"f", .bits 8 false⟩]⟩]
  headers := #[⟨"h", ⟨0⟩, false⟩]

theorem unnumbered_sharedLog : sharedLog.Unnumbered where
  names := show ∀ text ∈ sharedLog.sayings, Unnumbered text by decide
  methods := by simp [sharedLog, TypeDecl.methods]

theorem bufferName_sharedLog {supply : NameSupply} (h : supply.used = ["buffer_3"])
    (hmemo : supply.memo = [(("buffer", "3"), "buffer_3")]) :
    BufferName ((start .standard).scope sharedLog) supply ⟨3⟩ "buffer_3" := by
  have hunsaid : Unsaid ((start .standard).scope sharedLog) "buffer_3" :=
    unnumbered_sharedLog.unsaid rfl ⟨by decide, by decide⟩ (by decide) (by decide)
  refine ⟨hunsaid, by rw [hmemo]; rfl, fun m hm hne => ?_⟩
  rw [h, List.mem_singleton] at hm
  exact absurd hm hne

section

-- the whole code of a statement is evaluated
set_option maxRecDepth 2000

/-- The selector and both arms share the list, which is assembled for the selector. -/
theorem sharedLog_in_scope : ∃ f s',
    (start .standard).lowerStatement sharedLog
      (.switch ⟨3⟩ [⟨⟨6⟩, some (.call ⟨5⟩)⟩, ⟨⟨7⟩, some (.call ⟨5⟩)⟩]) none = (.ok f, s') ∧
    BufferName ((start .standard).scope sharedLog) s'.names ⟨3⟩ "buffer_3" ∧
    ∃ code, sharedLog.assembly ⟨3⟩ "buffer_3" = some code ∧
      InScope "buffer_3" code ((start .standard).script sharedLog
        (.switch ⟨3⟩ [⟨⟨6⟩, some (.call ⟨5⟩)⟩, ⟨⟨7⟩, some (.call ⟨5⟩)⟩]) none) := by
  obtain ⟨f, s', h, hused, hmemo⟩ : ∃ f s', (start .standard).lowerStatement sharedLog
      (.switch ⟨3⟩ [⟨⟨6⟩, some (.call ⟨5⟩)⟩, ⟨⟨7⟩, some (.call ⟨5⟩)⟩]) none = (.ok f, s') ∧
      s'.names.used = ["buffer_3"] ∧ s'.names.memo = [(("buffer", "3"), "buffer_3")] :=
    ⟨_, _, rfl, rfl, rfl⟩
  have hn := bufferName_sharedLog hused hmemo
  have he : sharedLog.expr ⟨3⟩ = .ok ⟨⟨3⟩, .void, .list [⟨2⟩]⟩ := rfl
  have hneeds : Needs ⟨(start .standard).scope sharedLog, none⟩ ⟨3⟩ ⟨3⟩ :=
    .self (.of_validate rfl) he rfl
  obtain ⟨code, hcode, -, hscope⟩ := buffer_in_scope rfl he rfl h hn (.needed hneeds)
  exact ⟨f, s', h, hn, code, hcode, hscope⟩

/-! ### Buffers out of scope -/

/-- The buffer of a list gets the name `n`, and the code of the statement mentions it where the
buffer is not in scope. -/
structure LeavesScope (p : Program) (stmt : Statement) (id : ExprId) (n : String) : Prop where
  valid : p.validate = .ok ()
  lowered : ∃ f s', (start .standard).lowerStatement p stmt none = (.ok f, s') ∧
    s'.names.memo.lookup ("buffer", id.text) = some n
  scope : ∃ code, p.assembly id n = some code ∧
    ¬ InScope n code ((start .standard).script p stmt none)

/-- A variable has the name that the buffer gets. -/
def saidBuffer : Program :=
  { sharedLog with
    exprs := sharedLog.exprs.push ⟨⟨8⟩, .bool, .path ⟨"buffer_3", none, false⟩⟩ }

/-- The name for the field is two words, of which the second is the name of the buffer. -/
def dashedBuffer : Program where
  exprs := #[.declared 0 .void "log" 0, .list 1 [], .called 2 0 [⟨1⟩],
    ⟨⟨3⟩, .void, .path ⟨"headers", none, true⟩⟩,
    ⟨⟨4⟩, .header ⟨0⟩, .member ⟨⟨3⟩, "h", some ⟨0⟩, none⟩⟩,
    ⟨⟨5⟩, .bits 48 false, .member ⟨⟨4⟩, "a-buffer", none, some ⟨⟨0⟩, 0⟩⟩⟩, .binary 6 .bool .equ 5 5]
  decls := #[⟨"log", .function ⟨"log", [], [⟨"data", .into, .bool⟩], .void⟩⟩]
  typeDecls := #[⟨"t", .header [⟨"a-buffer", .bits 48 false⟩]⟩]
  headers := #[⟨"h", ⟨0⟩, false⟩]

/-- Of two branches that share a list, the first one only has the code of its buffer. In the other
two programs the condition mentions the name by chance. -/
theorem buffers_leave_scope :
    LeavesScope sharedLog (.cond ⟨6⟩ (some (.call ⟨5⟩)) (some (.call ⟨5⟩))) ⟨3⟩ "buffer_3" ∧
    LeavesScope saidBuffer (.cond ⟨8⟩ (some (.call ⟨5⟩)) none) ⟨3⟩ "buffer_3" ∧
    LeavesScope dashedBuffer (.cond ⟨6⟩ (some (.call ⟨2⟩)) none) ⟨1⟩ "buffer_1" :=
  ⟨⟨rfl, ⟨_, _, rfl, rfl⟩, _, rfl, by decide +kernel⟩,
    ⟨rfl, ⟨_, _, rfl, rfl⟩, _, rfl, by decide +kernel⟩,
    rfl, ⟨_, _, rfl, rfl⟩, _, rfl, by decide +kernel⟩

end

end Session

end PacketC
