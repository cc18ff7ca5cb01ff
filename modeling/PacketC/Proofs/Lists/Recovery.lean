import PacketC.Proofs.Lists.FirstMet

/-! The buffers of lists over the calls of a session. The fragment of the first call that comes to
a list has the code of its buffer, so every later fragment can do without it. If that first call
fails, its code is gone, and no later call makes up for it. -/

namespace PacketC

open Code Lower

/-- The code stands in the fragment, word for word. -/
def Fragment.Contains (f : Fragment) (code : String) : Prop := words code <:+: words f.render

namespace Fragment

variable {f : Fragment} {code piece : String}

theorem words_render_eq (f : Fragment) : words f.render = f.pieces.flatMap words := by
  rw [render, words_stacked]

theorem contains_of_piece (h : piece ∈ f.pieces) (hcode : words code <:+: words piece) :
    f.Contains code := by
  rw [Contains, words_render_eq]
  exact hcode.trans (List.infix_of_mem_flatten (List.mem_map_of_mem h))

theorem contains_of_pre (h : code ∈ f.pre) : f.Contains code :=
  contains_of_piece (List.mem_append_left _ h) (List.infix_refl _)

theorem contains_of_text (h : words code <:+: words f.text) : f.Contains code :=
  contains_of_piece (List.mem_append_right _ (.head _)) h

end Fragment

theorem Code.Script.words_infix_of_mem {code : String} {s : Script} (h : Mark.code code ∈ s) :
    Code.words code <:+: s.words :=
  List.infix_of_mem_flatten (List.mem_map_of_mem (f := Mark.words) h)

/-! ### One call -/

/-- The watch on a list and on no name. No code mentions what is no identifier, so it fits whatever
the program is like. -/
def Lower.Watch.wordless (list : ExprId) (code : String) (final : NameSupply) : Watch :=
  ⟨list, " _0", code, final⟩

theorem Lower.Watch.wordless_clean (list : ExprId) (code : String) (final : NameSupply)
    (text : String) : (wordless list code final).Clean text := fun h =>
  absurd (show IsWord " _0" from h.isWord).chars (by decide)

theorem Lower.Watch.fits_wordless {scope : TypeScope} {id : ExprId} {e : Expr}
    {items : List ExprId} {n code : String} {final : NameSupply} (wf : scope.program.WellFormed)
    (he : scope.program.expr id = .ok e) (hnode : e.node = .list items) (hfinal : final.Sound)
    (hname : final.memo.lookup ("buffer", id.text) = some n)
    (hcode : scope.program.assembly id n = some code) : (wordless id code final).Fits scope := by
  have hforeign : Foreign scope " _0" :=
    .of_not_isWord ⟨by decide, by decide⟩ (fun h => absurd h.chars (by decide)) wf
  refine ⟨hforeign, show ¬ "parser_state_".toList <+: " _0".toList by decide, ⟨e, items, he, hnode⟩,
    hfinal, fun m _ _ => wordless_clean _ _ _ m, fun name h => ?_⟩
  cases hname.symm.trans h
  exact hcode

section Calls

variable {s s' : Session} {p : Program} {block : Option BlockId} {f : Fragment} {W : Watch}

/-- If the list is met for the first time, the fragment contains the code of the buffer. -/
structure Fragment.Accounts (f : Fragment) (W : Watch) (before after : Memory) : Prop where
  named : before.names.memo.lookup W.key = none → after.names.memo.lookup W.key ≠ none →
    W.list ∈ after.generated
  contains : after.names.Extends W.final → W.list ∉ before.generated → W.list ∈ after.generated →
    f.Contains W.code

theorem Lower.Watch.Passes.accounts {m : Memory} {state : Lower.State} {held : Prop}
    (h : W.Passes ⟨m, .empty⟩ state held) (hpre : f.pre = state.emission.gathered.pre)
    (hheld : held → f.Contains W.code) : f.Accounts W m state.memory where
  named := h.named
  contains hext hnot hmem := by
    rcases h.emits hext hnot hmem with hcode | hcode
    · rw [← h.emission.gathered_eq, ← hpre] at hcode
      exact Fragment.contains_of_pre hcode
    · exact hheld hcode

/-- A call whose code is one text. -/
theorem Session.run_accounts {kind : FragmentKind} {stage : String} {x : LowerM String}
    (hx : Spares (s.env p block) W False True x W.Clean)
    (h : s.run p block kind stage x = (.ok f, s')) : f.Accounts W s.memory s'.memory := by
  obtain ⟨text, state, hrun, rfl, rfl⟩ := exists_of_run h
  exact (hx.passes hrun).accounts rfl False.elim

theorem Task.lower_accounts (hW : W.Fits (s.scope p)) (hclean : ∀ text, W.Clean text) (t : Task)
    (h : t.lower s p block = (.ok f, s')) : f.Accounts W s.memory s'.memory := by
  have hr : SparesEach (s.env p block) W False Lower.expr := expr_spares hW
  cases t with
  | expr id mode => exact Session.run_accounts (hr nofun mode) h
  | decl id rename =>
    refine Session.run_accounts (declaration_spares hW hr ?_ fun _ _ _ _ => nofun) h
    exact fun name _ => hclean name
  | stmt body =>
    obtain ⟨script, state, hrun, hpre, -, rfl⟩ := Session.exists_outlined h
    have hreads : words f.text = Script.words script := reads_outlined body ⟨_, _, hrun⟩
    refine (outlined_passes hW hr body hrun).accounts hpre fun hmem => ?_
    exact Fragment.contains_of_text (hreads ▸ Script.words_infix_of_mem hmem)

end Calls

/-! ### The calls of a session -/

namespace Session

/-- The session has come to the list: its buffer has a name, or is taken to be assembled. -/
def hasMet (s : Session) (id : ExprId) : Bool :=
  s.isGenerated id || (s.names.memo.lookup ("buffer", id.text)).isSome

/-- The call came to the list as the first one, and failed. -/
structure Step.Loses (step : Step) (id : ExprId) : Prop where
  before : step.before.hasMet id = false
  failed : ∃ e, step.result = .error e
  after : step.after.hasMet id = true

variable {p : Program} {id : ExprId} {e : Expr} {items : List ExprId} {n code : String}

theorem extends_after (s : Session) (p : Program) (calls : List (Task × Option BlockId)) :
    s.names.Extends (s.after p calls).names := by
  induction calls generalizing s with
  | nil => exact .refl _
  | cons call rest ih => exact (call.1.memory_grows s p call.2).names.trans (ih _)

section

variable {final : NameSupply} (wf : p.WellFormed) (he : p.At id e)
  (hnode : e.node = .list items) (hfinal : final.Sound)
  (hname : final.memo.lookup ("buffer", id.text) = some n) (hcode : p.assembly id n = some code)

include wf he hnode hfinal hname hcode

/-- The first call that comes to the list contains the code of its buffer, or fails. -/
theorem contains_of_hasMet {s s' : Session} {t : Task} {block : Option BlockId} {f : Fragment}
    (h : t.lower s p block = (.ok f, s')) (hext : s'.names.Extends final)
    (hnot : s.hasMet id = false) (hmet : s'.hasMet id = true) : f.Contains code := by
  have hW : (Watch.wordless id code final).Fits (s.scope p) :=
    Watch.fits_wordless wf he hnode hfinal hname hcode
  have haccounts := t.lower_accounts hW (Watch.wordless_clean id code final) h
  simp only [hasMet, Bool.or_eq_false_iff, Bool.or_eq_true] at hnot hmet
  refine haccounts.contains hext (fun hmem => ?_) ?_
  · exact Bool.false_ne_true (hnot.1.symm.trans (List.contains_iff_mem.2 hmem))
  · rcases hmet with hmet | hmet
    · exact List.contains_iff_mem.1 hmet
    · exact haccounts.named (Option.isSome_eq_false_iff.1 hnot.2 |> Option.isNone_iff_eq_none.1)
        (Option.isSome_iff_ne_none.1 hmet)

theorem contains_or_loses (calls : List (Task × Option BlockId)) {s : Session}
    (hnot : s.hasMet id = false)
    (hmet : (s.after p calls).hasMet id = true) (hext : (s.after p calls).names.Extends final) :
    ∃ step ∈ s.steps p calls,
      (∃ f, step.result = .ok f ∧ f.Contains code) ∨ step.Loses id := by
  induction calls generalizing s with
  | nil => exact absurd hmet (by simp [after, hnot])
  | cons call rest ih =>
    obtain ⟨t, block⟩ := call
    rcases hrun : t.lower s p block with ⟨result, s'⟩
    have hrest : (s'.after p rest) = s.after p ((t, block) :: rest) := by rw [after, hrun]
    have hsteps : s.steps p ((t, block) :: rest) = ⟨s, result, s'⟩ :: s'.steps p rest := by
      rw [steps, hrun]
    rw [hsteps, List.exists_mem_cons_iff]
    -- the induction goes on until the first call that comes to the list
    cases hs' : s'.hasMet id with
    | false => exact .inr (ih hs' (hrest ▸ hmet) (hrest ▸ hext))
    | true =>
      refine .inl ?_
      cases result with
      | error err => exact .inr ⟨hnot, ⟨err, rfl⟩, hs'⟩
      | ok f =>
        have hext' := (extends_after s' p rest).trans (hrest ▸ hext)
        exact .inl ⟨f, rfl, contains_of_hasMet wf he hnode hfinal hname hcode hrun hext' hnot hs'⟩

end

/-- If the buffer of a list has a name, then a fragment contains the code of the buffer, or the
first call that came to the list has failed. -/
theorem list_assembled_or_lost {config : Config} (hvalid : p.validate = .ok ())
    (he : p.expr id = .ok e) (hnode : e.node = .list items)
    (calls : List (Task × Option BlockId))
    (hname : ((start config).after p calls).names.memo.lookup ("buffer", id.text) = some n) :
    ∃ code, p.assembly id n = some code ∧ ∃ step ∈ (start config).steps p calls,
      (∃ f, step.result = .ok f ∧ f.Contains code) ∨ step.Loses id := by
  have wf : p.WellFormed := .of_validate hvalid
  obtain ⟨code, hcode⟩ := exists_assembly wf he hnode n
  have hreachable : ((start config).after p calls).Reachable := .after (.start config) p calls
  have hmet : ((start config).after p calls).hasMet id = true := by simp [hasMet, hname]
  exact ⟨code, hcode, contains_or_loses wf he hnode hreachable.sound hname hcode calls rfl hmet
    (.refl _)⟩

/-- A field is logged, alone or with what a function gives that is not declared. -/
def fieldLog : Program where
  exprs := #[.packet, .packetHeader, .packetField 2 (.bits 8 false) "f" 0, .list 3 [⟨2⟩],
    .declared 4 .void "log" 0, .called 5 4 [⟨3⟩], .free 6 .void "missing", .called 7 6 [⟨2⟩],
    .called 8 4 [⟨3⟩, ⟨7⟩]]
  decls := #[⟨"log",
    .function ⟨"log", [], [⟨"data", .into, .bool⟩, ⟨"more", .into, .bool⟩], .void⟩⟩]
  typeDecls := #[⟨"t", .header [⟨"f", .bits 8 false⟩]⟩]
  headers := #[⟨"h", ⟨0⟩, false⟩]

/-- One call fails before it comes to the list, and one after its buffer is assembled. -/
def harmlessFailures : List (Task × Option BlockId) :=
  [(.stmt (.call ⟨7⟩), none), (.stmt (.call ⟨5⟩), none), (.stmt (.call ⟨8⟩), none),
    (.expr ⟨5⟩ .value, none)]

theorem fieldLog_assembled :
    ((start .standard).after fieldLog harmlessFailures).names.memo.lookup
      ("buffer", (⟨3⟩ : ExprId).text) = some "buffer_3" ∧
    ∃ code, fieldLog.assembly ⟨3⟩ "buffer_3" = some code ∧
      ∃ step ∈ (start .standard).steps fieldLog harmlessFailures,
        ∃ f, step.result = .ok f ∧ f.Contains code := by
  have hname : ((start .standard).after fieldLog harmlessFailures).names.memo.lookup
      ("buffer", (⟨3⟩ : ExprId).text) = some "buffer_3" := by decide +kernel
  have he : fieldLog.expr ⟨3⟩ = .ok ⟨⟨3⟩, .void, .list [⟨2⟩]⟩ := rfl
  obtain ⟨code, hcode, step, hstep, h⟩ := list_assembled_or_lost rfl he rfl harmlessFailures hname
  refine ⟨hname, code, hcode, step, hstep, h.resolve_right fun hloses => ?_⟩
  have hkept : ∀ step ∈ (start .standard).steps fieldLog harmlessFailures,
      step.before.hasMet ⟨3⟩ = false → step.after.hasMet ⟨3⟩ = true →
        step.result.toOption.isSome = true := by decide +kernel
  obtain ⟨err, herr⟩ := hloses.failed
  have hsome := hkept step hstep hloses.before hloses.after
  rw [herr] at hsome
  cases hsome

/-- The first call fails when it has come to the list, and the second one logs the list again. -/
def failureAndRetry : List (Task × Option BlockId) :=
  [(.stmt (.call ⟨8⟩), none), (.stmt (.call ⟨5⟩), none)]

/-- A fragment refers to the buffer, and no fragment has the code of it. -/
theorem fieldLog_lost : fieldLog.validate = .ok () ∧
    ((start .standard).after fieldLog failureAndRetry).names.memo.lookup
      ("buffer", (⟨3⟩ : ExprId).text) = some "buffer_3" ∧
    (∃ step ∈ (start .standard).steps fieldLog failureAndRetry,
      ∃ f, step.result = .ok f ∧ Mentions "buffer_3" f.render) ∧
    ∃ code, fieldLog.assembly ⟨3⟩ "buffer_3" = some code ∧
      ∀ step ∈ (start .standard).steps fieldLog failureAndRetry,
        ∀ f, step.result = .ok f → ¬ f.Contains code := by
  refine ⟨rfl, by decide +kernel, ?_, _, rfl, fun step hstep f hf hcontains => ?_⟩
  · obtain ⟨step, hstep, f, hf, hmentions⟩ :
        ∃ step ∈ (start .standard).steps fieldLog failureAndRetry,
          ∃ f ∈ step.result.toOption.toList, Mentions "buffer_3" f.text := by decide +kernel
    refine ⟨step, hstep, f, ?_, ?_⟩
    · cases hresult : step.result with
      | error e => rw [hresult] at hf; cases hf
      | ok g => rw [hresult] at hf; rw [List.mem_singleton.1 hf]
    · rw [Mentions, f.words_render_eq]
      exact List.mem_flatMap.2 ⟨f.text, List.mem_append_right _ (.head _), hmentions⟩
  · have hnone : ∀ step ∈ (start .standard).steps fieldLog failureAndRetry,
        ∀ g ∈ step.result.toOption.toList, ∀ piece ∈ g.pieces,
          "memcpy".toList ∉ words piece := by decide +kernel
    have hmem : "memcpy".toList ∈ words f.render := hcontains.subset (by decide +kernel)
    rw [f.words_render_eq] at hmem
    obtain ⟨piece, hpiece, hmem⟩ := List.mem_flatMap.1 hmem
    exact hnone step hstep f (by rw [hf]; exact .head _) piece hpiece hmem

end Session

end PacketC
