import PacketC.Proofs.Lists.Watch
import PacketC.Proofs.Scope.Statements

/-! Expressions, and the statements that have no parts, leave the buffer of the watched list alone
unless they come to the list itself. That is where the buffer is assembled, if the list is met for
the first time; if it was met before, it is assembled already. To keep away from the name of the
buffer is a manner of writing, so only the list itself needs an argument. -/

namespace PacketC.Lower

open Code

/-- An expression that may be lowered: if the list is `off`, one that does not reach it. -/
def Watch.Admits (W : Watch) (p : Program) (off : Prop) (id : ExprId) : Prop :=
  off → ¬ p.Reaches id W.list

theorem Watch.Admits.part {W : Watch} {p : Program} {off : Prop} {id child : ExprId}
    (h : W.Admits p off id) (hp : p.Part id child) : W.Admits p off child := fun hoff hr =>
  h hoff (.part hp hr)

/-- All expressions that may be lowered leave the buffer alone until they assemble it. -/
def SparesEach (env : Env) (W : Watch) (off : Prop) (recur : Recur) : Prop :=
  ∀ {C : Prop} {id : ExprId}, W.Admits env.program off id → ∀ mode,
    Spares env W off C (recur id mode) W.Clean

variable {env : Env} {W : Watch} {off C : Prop} {recur : Recur}

/-! ### The watched list -/

/-- What the lowering of a list does to the state. -/
theorem cases_of_bufferText {id : ExprId} {items : List ExprId} {s t : State} {text : String}
    (h : bufferText id items env s = (.ok text, t)) :
    let supply := s.memory.names.named "buffer" id.text
    id ∈ s.memory.generated ∧ t = s.withNames supply.2 ∨
      id ∉ s.memory.generated ∧ ∃ code ds, Returns env (bufferCode items supply.1) code ∧
        t = ⟨⟨supply.2, id :: s.memory.generated, s.memory.diagnostics ++ ds⟩,
          s.emission.prepend code⟩ := by
  obtain ⟨name, u, hu, h⟩ := exists_of_bind h
  rw [run_nameOf] at hu
  generalize s.memory.names.named "buffer" id.text = supply at hu ⊢
  cases hu
  obtain ⟨first, v, hv, h⟩ := exists_of_bind h
  rcases Spares.cases_of_firstTime hv with ⟨rfl, hid, rfl⟩ | ⟨rfl, hid, rfl⟩
  · cases h
    exact .inl ⟨hid, rfl⟩
  · obtain ⟨code, w, hw, h⟩ := exists_of_bind h
    have hreads : ReadsOnly env env (bufferCode items supply.1) := .bufferCode rfl items supply.1
    obtain ⟨ds, hds⟩ := hreads.state _
    rw [hw] at hds
    cases hds
    cases h
    exact .inr ⟨hid, code, ds, ⟨_, _, hw⟩, rfl⟩

variable (hW : W.Fits env.toTypeScope)

include hW

/-- The code that is put in front of the statement for the watched list is its assembly. -/
theorem Watch.Fits.code_eq {e : Expr} {items : List ExprId} (he : env.At W.list e)
    (hnode : e.node = .list items) {names : NameSupply}
    (hext : (names.named "buffer" W.list.text).2.Extends W.final) {code : String}
    (hret : Returns env (bufferCode items (names.named "buffer" W.list.text).1) code) :
    code = W.code := by
  have hname := hext.kept W.key _ (names.lookup_named "buffer" W.list.text)
  exact Option.some.inj ((assembly_of_returns he hnode hret).symm.trans (hW.code _ hname))

/-- The watched list: met for the first time, its buffer is assembled; else it has been before. -/
theorem watchedBuffer_spares (hon : ¬ off) {e : Expr} {items : List ExprId}
    (he : env.At W.list e) (hnode : e.node = .list items) :
    Spares env W off C (bufferText W.list items) W.Clean := by
  have hlater : ∀ {s text t}, bufferText W.list items env s = (.ok text, t) → W.Later off s t := by
    intro s text t h
    rcases cases_of_bufferText h with ⟨hid, rfl⟩ | ⟨hid, code, ds, hret, rfl⟩
    · refine ⟨⟨.of_names (.named ..), .refl _, fun _ _ => hid, fun _ hs => absurd hid hs⟩,
        (·.named ..), fun hoff => absurd hoff hon⟩
    · refine ⟨⟨⟨.named .., List.subset_cons_self .., List.prefix_append ..⟩, .prepend code _,
        fun _ _ => .head _, fun hext _ _ => .inl ?_⟩, (·.named ..), fun hoff => absurd hoff hon⟩
      rw [← hW.code_eq he hnode hext hret]
      exact mem_prepend code _
  refine ⟨hlater, fun {s text t} h _ hext hcase => .inl ?_⟩
  rcases hcase with hbuilt | ⟨hcalm, _⟩
  · exact (hlater h).built hbuilt
  · rcases cases_of_bufferText h with ⟨hid, rfl⟩ | ⟨hid, code, ds, hret, rfl⟩
    -- the buffer is not at hand, so the list was not met in this run
    · exact absurd (hcalm.unmet hid) hon
    · refine ⟨hon, ?_⟩
      rw [hW.code_eq he hnode hext hret]
      by_cases hmem : W.code ∈ s.emission.current.pre
      · exact (hcalm.assembled hmem).of_grown (Emission.Grows.prepend _ _).pre
      · refine ⟨s.emission.current.pre, [], ?_, hcalm.pre⟩
        rw [Emission.prepend, if_neg (mt List.contains_iff_mem.1 hmem)]

/-- A transition is not the list that is watched. -/
theorem Watch.Fits.ne_select {id : ExprId} {e : Expr} {keys : List ExprId} {arms : List SelectArm}
    (he : env.At id e) (hnode : e.node = .select keys arms) : id ≠ W.list := by
  rintro rfl
  obtain ⟨e', items, he', hlist⟩ := hW.node
  rw [he] at he'
  cases he'
  rw [hnode] at hlist
  cases hlist

/-! ### The manner -/

omit hW in
theorem Watch.ne_key {hint : String} (h : hint ≠ "buffer") (id : ExprId) :
    (hint, id.text) ≠ W.key := fun heq => h (congrArg Prod.fst heq)

theorem clean_parserStateCall {state : String} (h : W.Clean state) :
    W.Clean (Target.parserStateCall state) := by
  refine (closed_covered hW.numbered).ending (fun hm => ?_) rfl
  rw [Mentions, words, String.toList_append] at hm
  exact (mem_wordsIn_word_append (by decide) hm).elim h hW.stem

/-- To keep away from the name of the watched buffer. -/
def Watch.Fits.manner (off : Prop) : Manner env where
  World := Unit
  Holds C x P := Spares env W off (C ()) x (P · ())
  bind := .bind
  weaken hx h := .weaken hx h
  inEnv := .inEnv
  pure h := .pure h
  throw := .throw
  note := .note
  lined := true
  Bare := W.Clean
  Part x _ := W.Clean x
  Text x _ := W.Clean x
  Piece x _ := W.Clean x
  Code x _ := W.Clean x
  Announces m x _ := W.Clean m → W.Clean x
  Hint _ := True
  bare := closed_covered hW.numbered
  text := (closed_covered hW.numbered).sealed
  code := (closed_covered hW.numbered).sealed
  text_of_bare := id
  code_of_text := id
  word hx hw hlast := by
    refine hW.numbered.not_mentions_append hx hw ((Option.any_eq_true _ _).2 ?_)
    obtain ⟨c, hc, hletter⟩ := (Option.any_eq_true _ _).1 hlast
    simp only [isEndLetter, Bool.and_eq_true] at hletter
    exact ⟨c, hc, hletter.2⟩
  names := hW.names _
  texts := hW.texts _
  hint _ := trivial
  fieldHint _ := trivial
  always h := h ()
  declare htype hname _ := clean_declare htype hname
  addition := hW.numbered.not_mentions (by decide)
  announces _ hintro hhead hfollows htail :=
    (closed_covered hW.numbered).declaration hintro.ends (hhead ()) id hfollows (htail ())
  hoist h := .hoist h
  defer h := .defer h

theorem Watch.Fits.supplied : (hW.manner off).Supplied where
  freshName _ := Spares.freshName hW _
  nameOf _ hne := Spares.nameOf hW (Watch.ne_key hne _)
  announced hm h := h hm
  state := clean_parserStateCall hW

theorem Watch.Fits.grants {ref : FieldRef} {l : PacketField}
    (hl : env.program.packetField ref = .ok l) : (hW.manner off).Grants l :=
  have hn := hW.numbered
  have hl := hW.packetField hl
  { value := clean_packetValue hn hl
    extract := fun hbuffer => (ready_extractPacket hn hl hl.fieldId hbuffer).holds
    set := fun hvalue => (ready_setField hn hl hvalue).holds
    modify := fun hbuffer hbytes => (ready_modifyField hn hl hbuffer hbytes).holds }

theorem Watch.Fits.admits : (hW.manner off).Admits (W.Admits env.program off) where
  wellFormed := hW.wellFormed
  naming := hW.supplied.naming
  part := .part
  field _ _ _ hl := hW.grants hl
  pays _ _ _ _ _ _ _ _ _ _ _ _ _ _ _ _ _ _ _ _ _ _ _ _ hl _ _ hbuffer :=
    have hl := hW.packetField hl
    (ready_extractPacket hW.numbered hl hl.fieldInstance hbuffer).holds
  buffer {C id e items} hid he hnode := by
    by_cases heq : id = W.list
    · subst heq
      exact watchedBuffer_spares hW (fun hoff => hid hoff (.refl _)) he hnode
    · have hkey : ("buffer", id.text) ≠ W.key := fun h =>
        heq (Handle.text_injective (congrArg Prod.snd h))
      exact bufferText_holds (M := hW.manner off) (Spares.nameOf hW hkey) (Spares.firstTime heq)
        items
  struct _ _ _ := rfl
  select _ he hnode := ⟨rfl, hW.supplied, Spares.firstTime (hW.ne_select he hnode)⟩

/-! ### Expressions and simple statements -/

theorem expr_spares : SparesEach env W off expr := fun hid mode =>
  expr_holds hW.admits (C := fun _ => _) hid mode

theorem controlLock_spares :
    Spares env W off C controlLock fun lock => ∀ name ∈ lock, W.Clean name :=
  controlLock_holds (M := hW.manner off) (C := fun _ => C)

variable (hr : SparesEach env W off recur)

include hr

theorem SparesEach.each : (hW.manner off).Each (W.Admits env.program off) recur :=
  fun _ _ hid mode => hr hid mode

theorem assign_spares {left right : ExprId} (hleft : W.Admits env.program off left)
    (hright : W.Admits env.program off right) :
    Spares env W off C (assign recur left right) W.Clean :=
  assign_holds hW.admits hW.supplied (hr.each hW) (C := fun _ => C) hleft hright

theorem declaration_spares {id : DeclId} {rename : Option String}
    (hrename : ∀ name ∈ rename, W.Clean name)
    (hinit : ∀ d e, env.program.decl id = .ok d → d.body.StartsFrom e →
      W.Admits env.program off e) : Spares env W off C (declaration recur id rename) W.Clean :=
  declaration_holds (C := fun _ => C) (hr.each hW) hrename hinit

theorem runCall_spares {id : ExprId} (hid : W.Admits env.program off id) :
    Spares env W off C (runCall recur id) W.Clean :=
  runCall_holds hW.admits hW.supplied (hr.each hW) (C := fun _ => C) hid

theorem caseLabel_spares {id : ExprId} (hid : W.Admits env.program off id) :
    Spares env W off C (caseLabel recur id) fun label => ∀ text ∈ label, W.Clean text :=
  caseLabel_holds (C := fun _ => C) (hr.each hW) hid

end PacketC.Lower
