import PacketC.Proofs.Access.Writes

/-! Statements write every accessor with a place that it may be applied to, and so does all that a
session is asked for. A body gathers the code around its text in a frame of its own; the words of
the body are those of the frame and of the text, in this order. -/

namespace PacketC

open Code

/-! ### Where a statement starts from -/

namespace Task.Starts

variable {p : Program} {s c : Statement} {e : ExprId}

theorem expression (he : e ∈ s.expressions) : (Task.stmt s).Starts p e := .inr ⟨s, .self s, he⟩

theorem child (hc : c ∈ s.children) (h : (Task.stmt c).Starts p e) : (Task.stmt s).Starts p e := by
  rcases h with ⟨d, b, hd, hb⟩ | ⟨t, ht, he⟩
  · exact .inl ⟨d, b, .child hc hd, hb⟩
  · exact .inr ⟨t, .child hc ht, he⟩

end Task.Starts

/-- The accessors may be applied to what the task reaches. -/
def Task.Permits (p : Program) (Q : Grant) (t : Task) : Prop := ∀ e, t.Starts p e → p.Permits Q e

namespace Lower

variable {env : Env} {Q : Grant}

/-! ### Blocks and branches -/

theorem accesses_blockText (hm : Muted env.toTypeScope) {lock : Option String}
    (hlock : ∀ name ∈ lock, Free name) {parts : List String} (h : ∀ part ∈ parts, Accesses Q part) :
    Accesses Q (blockText env.config lock parts) := by
  cases lock with
  | none => exact .stacked h
  | some name =>
    have hname := (hlock name rfl).accesses (Q := Q)
    refine .stacked (List.forall_mem_append.2 ⟨List.forall_mem_cons.2 ⟨?_, h⟩,
      List.forall_mem_singleton.2 ?_⟩)
    · exact (closed_accesses.start hm.lock.accesses rfl).close hname rfl
    · exact (closed_accesses.start hm.unlock.accesses rfl).close hname rfl

theorem enclosed_writes {x : LowerM String} (hx : Writes env Q (Accesses Q) x) :
    Writes env Q (Accesses Q) (enclosed x) := by
  refine .bind (Writes.framed hx) fun r _ hr => .pure ?_
  obtain ⟨htext, hframe⟩ := hr
  obtain ⟨hpre, hpost⟩ := List.forall_mem_append.1 hframe
  rw [Accesses, words_bodyText]
  exact (AccessesIn.append (.flatMap hpre) htext).append (.flatMap hpost)

theorem accesses_condText (style : Indentation) {c t f : String} (hc : Accesses Q c)
    (ht : Accesses Q t) (hf : Accesses Q f) : Accesses Q (condText style c t f) := by
  have hcond : Accesses Q s!"if( {c} ) \x7b" := (closed_accesses.opens rfl).close hc rfl
  have helse : Accesses Q "\x7d else \x7b" := (free_of_isFree rfl).accesses
  have hend : Accesses Q "\x7d" := (free_of_isFree rfl).accesses
  rw [Accesses, words_reading.condText]
  exact (((AccessesIn.append hcond ht).append helse).append hf).append hend

/-- An arm whose label and body are in order. -/
structure Arm.InOrder (Q : Grant) (a : Arm) : Prop where
  label : ∀ label ∈ a.label, Accesses Q label
  body : Accesses Q a.body

theorem Arm.InOrder.head {a : Arm} (h : a.InOrder Q) : Accesses Q a.head := by
  unfold Arm.head
  split
  · exact (free_of_isFree rfl).accesses
  · rename_i label hlabel
    exact (closed_accesses.opens rfl).close (h.label label hlabel) rfl

theorem Arm.InOrder.accessesIn {a : Arm} (h : a.InOrder Q) :
    AccessesIn Q (Text.Reading.arm words a) :=
  (AccessesIn.append h.head h.body).append (free_of_isFree rfl).accesses

theorem accesses_switchText (style : Indentation) {s : String} (hs : Accesses Q s)
    {arms : List Arm} (h : ∀ a ∈ arms, a.InOrder Q) : Accesses Q (switchText style s arms) := by
  have hhead : Accesses Q (s!"switch({s})" ++ " \x7b") :=
    closed_accesses.ending ((closed_accesses.opens rfl).close hs rfl) rfl
  have hdefault : Accesses Q "default: \x7b\x7d" := (free_of_isFree rfl).accesses
  rw [Accesses, words_reading.switchText]
  refine ((AccessesIn.append hhead (.flatMap fun a ha => (h a ha).accessesIn)).append ?_).append
    (free_of_isFree rfl).accesses
  split
  · exact .nil
  · exact hdefault

/-! ### All statements -/

theorem expr_writes (hm : Muted env.toTypeScope) {id : ExprId} (hp : env.program.Permits Q id)
    (mode : Mode) : Writes env Q (Accesses Q) (expr id mode) :=
  hm.writes (expr_holds hm.admits hp mode)

mutual

theorem statement_writes (hm : Muted env.toTypeScope) :
    ∀ s : Statement, (Task.stmt s).Permits env.program Q →
      Writes env Q (Accesses Q) (statement expr s)
  | .assign left right, hp => by
    rw [statement]
    exact hm.writes (assign_holds hm.admits (hm.supplied Q) (expr_holds hm.admits)
      (hp _ (.expression (.head _))) (hp _ (.expression (.tail _ (.head _)))))
  | .block components annotations, hp => by
    rw [statement]
    have hparts := blockParts_writes hm components fun c hc e he => hp e (.child hc he)
    have hblock : ∀ lock, (∀ name ∈ lock, Free name) → Writes env Q (Accesses Q) (do
        let parts ← blockParts expr components
        return blockText (← config) lock parts) := fun lock hlock =>
      .bind hparts fun parts _ hall => Writes.config (.pure (accesses_blockText hm hlock hall))
    dsimp only
    split
    · exact .bind (hm.writes (Q := Q) controlLock_holds) fun lock _ hlock =>
        hblock lock hlock
    · exact hblock none nofun
  | .cond condition ifTrue ifFalse, hp => by
    rw [statement]
    have htrue := nested_writes hm ifTrue fun c hc e he =>
      hp e (.child (List.mem_append_left _ (Option.mem_toList.2 hc)) he)
    have hfalse := nested_writes hm ifFalse fun c hc e he =>
      hp e (.child (List.mem_append_right _ (Option.mem_toList.2 hc)) he)
    refine .bind htrue fun t _ ht => .bind hfalse fun f _ hf => ?_
    refine .bind (expr_writes hm (hp _ (.expression (.head _))) _) fun c _ hc => ?_
    refine Writes.config (.pure ?_)
    refine accesses_condText _ ?_ ht hf
    split
    · exact (free_of_isFree rfl).accesses
    · exact hc
  | .call e, hp => by
    rw [statement]
    exact hm.writes (runCall_holds hm.admits (hm.supplied Q) (expr_holds hm.admits)
      (hp _ (.expression (.head _))))
  | .switch selector cases, hp => by
    rw [statement]
    refine .bind (expr_writes hm (hp _ (.expression (.head _))) _) fun s _ hs => ?_
    refine .bind (switchArms_writes hm cases ?_ ?_) fun arms _ harms => Writes.config (.pure ?_)
    · exact fun a ha => hp _ (.expression (.tail _ (List.mem_map_of_mem ha)))
    · exact fun a ha c hc e he => hp e (.child (List.mem_filterMap.2 ⟨a, ha, hc⟩) he)
    · exact accesses_switchText _ hs harms
  | .decl id, hp => by
    rw [statement]
    refine hm.writes (declaration_holds (expr_holds hm.admits) (by nofun) fun d e hd he => ?_)
    exact hp e (.inl ⟨id, d, .self _, hd, he⟩)
  | .empty, _ => by
    rw [statement]
    exact .pure (free_of_isFree rfl).accesses

theorem blockParts_writes (hm : Muted env.toTypeScope) :
    ∀ l : List Statement, (∀ s ∈ l, (Task.stmt s).Permits env.program Q) →
      Writes env Q (fun parts => ∀ part ∈ parts, Accesses Q part) (blockParts expr l)
  | [], _ => by
    rw [blockParts]
    exact .pure nofun
  | s :: rest, hp => by
    rw [blockParts]
    rw [List.forall_mem_cons] at hp
    refine .bind (enclosed_writes (statement_writes hm s hp.1)) fun part _ hpart => ?_
    refine .bind (blockParts_writes hm rest hp.2) fun parts _ hparts => .pure ?_
    exact List.forall_mem_cons.2 ⟨hpart, hparts⟩

theorem nested_writes (hm : Muted env.toTypeScope) :
    ∀ s : Option Statement, (∀ c, s = some c → (Task.stmt c).Permits env.program Q) →
      Writes env Q (Accesses Q) (nested expr s)
  | none, _ => by
    rw [nested]
    exact .pure (free_of_isFree rfl).accesses
  | some s, hp => by
    rw [nested]
    exact enclosed_writes (statement_writes hm s (hp s rfl))

theorem switchArms_writes (hm : Muted env.toTypeScope) :
    ∀ l : List (SwitchArm Statement), (∀ a ∈ l, env.program.Permits Q a.label) →
      (∀ a ∈ l, ∀ c, a.body = some c → (Task.stmt c).Permits env.program Q) →
        Writes env Q (fun arms => ∀ a ∈ arms, a.InOrder Q) (switchArms expr l)
  | [], _, _ => by
    rw [switchArms]
    exact .pure nofun
  | ⟨label, body⟩ :: rest, hlabels, hbodies => by
    rw [switchArms]
    rw [List.forall_mem_cons] at hlabels hbodies
    refine .bind (hm.writes (caseLabel_holds (expr_holds hm.admits) hlabels.1))
      fun text _ htext => ?_
    refine .bind (nested_writes hm body hbodies.1) fun inner _ hinner => ?_
    refine .bind (switchArms_writes hm rest hlabels.2 hbodies.2) fun arms _ harms => .pure ?_
    exact List.forall_mem_cons.2 ⟨⟨htext, hinner⟩, harms⟩

end

/-! ### All tasks -/

/-- All that a session is asked for is written in order. -/
theorem action_writes (hm : Muted env.toTypeScope) (t : Task)
    (hrename : ∀ id name, t = .decl id (some name) → Free name)
    (hp : t.Permits env.program Q) : Writes env Q (Accesses Q) (t.action expr) := by
  cases t with
  | expr id mode => exact expr_writes hm (hp id (.inr rfl)) mode
  | decl id rename =>
    refine hm.writes (declaration_holds (expr_holds hm.admits) (fun name hname => ?_)
      fun d e hd he => ?_)
    · exact hrename id name (hname ▸ rfl)
    · exact hp e (.inl ⟨id, d, rfl, hd, he⟩)
  | stmt s => exact statement_writes hm s hp

end Lower

end PacketC
