import PacketC.Proofs.Scope.Stores

/-! Calls and all other statements keep a name in order, each in a frame of its own. -/

namespace PacketC.Lower

open Code

variable {env : Env} {n : String} {C : Prop → Prop} {recur : Recur} {ha : Apart env.toTypeScope n}
  (hr : ha.manner.Each env.program.Quiet recur)

/-! ### Calls -/

theorem settle_leads (hn : Numbered n) :
    Leads env n (Steady n C) Digest.settle fun _ => Steady n C :=
  .config (.defer fun _ => (Ready.ofList hn rfl).close (covered_toString hn _) rfl)

include hr in
theorem statementText_leads {id : ExprId} {e : Expr} {call : Call}
    (he : env.At id e) (hnode : e.node = .call call)
    (hq : ∀ a ∈ call.args, env.program.Quiet a) :
    Leads env n Opened (Digest.statementText recur id call) fun text => Settled n [.code text] := by
  have hn := ha.numbered
  refine .opened (.bind (.of_tracks (ofCall_holds hr fun h => hq _ (h ▸ .head _))) fun d hd => ?_)
  have hd : d.Written ha.manner := (found_of_ofCall hd).written (Program.mem_of_expr he) hnode
  refine .nameThen ?_ (announce_holds hd And.left) fun m _ => ?_
  · rw [issue_of_expr he, if_neg (by decide), if_neg (by decide), constantCode, hnode]
  · refine .bind (.declare fun _ => announces_list hd.fields m) fun _ _ => ?_
    refine .bind (settle_leads hn) fun _ _ => .pure fun s hs _ => ?_
    obtain ⟨hlist, _, hreceiver, _⟩ := hs.known.here
    refine hs.toOrdered.settled_of_allowed ?_
    exact (((Ready.ofList hn rfl).arg (covered_of_clean hd.name) rfl).arg hreceiver.covered
      rfl).close hlist.covered rfl

include hr in
theorem runCall_leads {id : ExprId} (hq : env.program.Quiet id) :
    Leads env n Opened (runCall recur id) fun text => Settled n [.code text] := by
  refine .look fun e he => ?_
  have hid : e.id = id := ha.wellFormed.id_eq he
  split
  · rename_i call hnode
    have hargs : ∀ a ∈ call.args, env.program.Quiet a := fun a hmem =>
      hq.part ⟨e, he, hnode ▸ .arg hmem⟩
    refine .look fun method hmethod => ?_
    split
    · exact statementText_leads hr (hid ▸ he) hnode hargs
    · refine .config (.ask _ ?_)
      split
      · exact .of_text (sendHeader_holds ha.admits hr hargs)
      · exact .of_text (tracedCall_holds hr hq e (Program.mem_of_expr hmethod))
  · exact .throw

/-! ### Scripts -/

theorem Nested.settled {script : Script} {s : State} (h : Nested n script) (hs : Ordered n s) :
    Settled n script s := hs.settled fun d _ => ⟨d, id, h d⟩

theorem Nested.append {a b : Script} (ha : Nested n a) (hb : Nested n b) : Nested n (a ++ b) :=
  fun d => (ha d).append (hb d)

theorem nested_code {text : String} (h : ¬ Mentions n text) : Nested n [.code text] :=
  fun _ => .of_allowed (.of_clean h)

theorem nested_flatten {parts : List Script} (h : ∀ part ∈ parts, Nested n part) :
    Nested n parts.flatten := by
  induction parts with
  | nil => exact fun d => .nil d
  | cons part parts ih =>
    rw [List.forall_mem_cons] at h
    exact h.1.append (ih h.2)

theorem nested_block (ha : Apart env.toTypeScope n) {lock : Option String}
    (hlock : ∀ name, lock = some name → ¬ Mentions n name) {parts : List Script}
    (h : ∀ part ∈ parts, Nested n part) : Nested n (blockScript env.config lock parts) := by
  have hn := ha.numbered
  have hparts := nested_flatten h
  cases lock with
  | none => exact hparts
  | some name =>
    have hname := hlock name rfl
    refine ((nested_code ?_).append hparts).append (nested_code ?_)
    · exact ((closed_covered (C := False) hn).start ha.lock rfl).close hname rfl
    · exact ((closed_covered (C := False) hn).start ha.unlock rfl).close hname rfl

variable {d : Bool}

theorem scoped_cond (hn : Numbered n) {c : String} (hc : Covered n (d = true) c) {t f : Script}
    (ht : Nested n t) (hf : Nested n f) : Scoped n d (condScript c t f) d := by
  have hcond : Allowed n (d = true) s!"if( {c} ) \x7b" := (Ready.ofList hn rfl).close hc rfl
  have helse : Nested n [.code "\x7d else \x7b"] := nested_code (hn.not_mentions (by decide))
  have hend : Nested n [.code "\x7d"] := nested_code (hn.not_mentions (by decide))
  exact (((Scoped.of_allowed hcond).append (ht d)).append ((helse d).append (hf d))).append (hend d)

/-- The labels of the arms. -/
def labels (arms : List ArmScript) : List String := arms.flatMap fun a => a.arm.label.toList

theorem scoped_arms (hn : Numbered n) {arms : List ArmScript}
    (hlabels : ∀ l ∈ labels arms, Allowed n (d = true) l) (hbodies : ∀ a ∈ arms, Nested n a.body) :
    Scoped n d (arms.flatMap ArmScript.script) d := by
  have hbreak : Nested n [.code "break;"] := nested_code (hn.not_mentions (by decide))
  induction arms with
  | nil => exact .nil d
  | cons a arms ih =>
    rw [List.forall_mem_cons] at hbodies
    have hrest := ih (fun l hl => hlabels l (List.mem_append_right _ hl)) hbodies.2
    refine (Scoped.append (Scoped.append ?_ (hbodies.1 d)) (hbreak d)).append hrest
    unfold labelScript
    split
    · exact nested_code (hn.not_mentions (by decide)) d
    · rename_i label hlabel
      have hcase : Nested n [.code "case "] := nested_code (hn.not_mentions (by decide))
      refine (hcase d).append (.of_allowed ((sealed_allowed hn).start (hlabels label ?_) rfl).whole)
      exact List.mem_append_left _ (Option.mem_toList.2 hlabel)

theorem scoped_switch (hn : Numbered n) {selector : String} (hs : Covered n (d = true) selector)
    {arms : List ArmScript} (hlabels : ∀ l ∈ labels arms, Allowed n (d = true) l)
    (hbodies : ∀ a ∈ arms, Nested n a.body) : Scoped n d (switchScript selector arms) d := by
  have hhead : Allowed n (d = true) (s!"switch({selector})" ++ " \x7b") :=
    ((Ready.ofList hn rfl).arg hs rfl).last (covered_of_all hn (by decide))
  have hend : Nested n [.code "\x7d"] := nested_code (hn.not_mentions (by decide))
  refine (((Scoped.of_allowed hhead).append (scoped_arms hn hlabels hbodies)).append ?_).append
    (hend d)
  split
  · exact .nil d
  · exact nested_code (hn.not_mentions (by decide)) d

/-! ### All statements -/

/-- No transition is reached from the statement. -/
def QuietStatement (p : Program) (s : Statement) : Prop :=
  ∀ e, (Task.stmt s).Starts p e → p.Quiet e

namespace QuietStatement

variable {p : Program} {s : Statement}

theorem expression (h : QuietStatement p s) {e : ExprId} (he : e ∈ s.expressions) : p.Quiet e :=
  h e (.inr ⟨s, .self s, he⟩)

theorem child (h : QuietStatement p s) {c : Statement} (hc : c ∈ s.children) :
    QuietStatement p c := by
  rintro e (⟨d, b, hd, hb⟩ | ⟨t, ht, he⟩)
  · exact h e (.inl ⟨d, b, .child hc hd, hb⟩)
  · exact h e (.inr ⟨t, .child hc ht, he⟩)

end QuietStatement

theorem single_leads {x : LowerM String}
    (hx : Leads env n Opened x fun text => Settled n [.code text]) :
    Leads env n Opened (single x) fun o => Settled n o.2 :=
  .bind hx fun _ _ => .pure fun _ hs _ => hs

mutual

theorem outlined_leads (hr : ha.manner.Each env.program.Quiet recur) :
    ∀ s : Statement, QuietStatement env.program s →
      Leads env n Opened (outlined recur s) fun o => Settled n o.2
  | .assign left right, hq => by
    rw [outlined]
    exact single_leads (assign_leads hr (hq.expression (.head _))
      (hq.expression (.tail _ (.head _))))
  | .block components annotations, hq => by
    rw [outlined]
    have hparts {C} := outlinedParts_leads hr (C := C) components fun c hc => hq.child hc
    have hblock : ∀ {lock} {C : Prop → Prop}, Leads env n
        (Tracked env.program n fun w => (∀ name ∈ lock, ¬ Mentions n name) ∧ C w) (do
          let parts ← outlinedParts recur components
          let c ← config
          return (blockText c lock (parts.map Prod.fst), blockScript c lock (parts.map Prod.snd)))
          fun o => Settled n o.2 := by
      refine fun {lock C} => .bind hparts fun parts _ => .config (.pure fun s hs _ => ?_)
      refine (nested_block ha hs.1.known.here.1 fun part hpart => ?_).settled hs.1.toOrdered
      obtain ⟨o, ho, rfl⟩ := List.mem_map.1 hpart
      exact hs.2 o ho
    refine .opened ?_
    split
    · exact .bind (.of_tracks (controlLock_holds (M := ha.manner))) fun _ _ => hblock
    · exact .bind (.of_tracks (.pure fun _ _ h => nomatch h)) fun _ _ => hblock
  | .cond condition ifTrue ifFalse, hq => by
    rw [outlined]
    have hcondition := hr (C := fun _ => True) (hq.expression (.head _)) .value
    have htrue {C} := outlinedBody_leads hr (C := C) ifTrue fun c hc => hq.child
      (List.mem_append_left _ (Option.mem_toList.2 hc))
    have hfalse {C} := outlinedBody_leads hr (C := C) ifFalse fun c hc => hq.child
      (List.mem_append_right _ (Option.mem_toList.2 hc))
    refine .opened (.bind htrue fun t _ => .bind hfalse.frame fun f _ => ?_)
    refine .bind (Leads.of_tracks hcondition).frame.frame fun c _ => ?_
    refine .config (.pure fun s hs _ => ?_)
    obtain ⟨⟨hs, hf⟩, ht⟩ := hs
    refine hs.toOrdered.settled fun d hd => ⟨d, id, scoped_cond ha.numbered ?_ ht hf⟩
    split
    · exact covered_of_all ha.numbered (by decide)
    · exact fun hm => hd.2 (hs.known.here.1.covered hm)
  | .call e, hq => by
    rw [outlined]
    exact single_leads (runCall_leads hr (hq.expression (.head _)))
  | .switch selector cases, hq => by
    rw [outlined]
    have harms {C} := outlinedArms_leads hr (C := C) cases
      (fun a hmem => hq.expression (.tail _ (List.mem_map_of_mem hmem)))
      fun a hmem c hc => hq.child (List.mem_filterMap.2 ⟨a, hmem, hc⟩)
    have hselector := hr (C := fun _ => True) (hq.expression (.head _)) .value
    refine .opened (.bind (.of_tracks hselector) fun text _ => ?_)
    refine .bind harms fun arms _ => .config (.pure fun s hs _ => ?_)
    obtain ⟨hs, hbodies⟩ := hs
    obtain ⟨hlabels, htext, _⟩ := hs.known.here
    refine hs.toOrdered.settled fun d hd => ⟨d, id, scoped_switch ha.numbered ?_ ?_ hbodies⟩
    · exact fun hm => hd.2 (htext.covered hm)
    · exact fun l hl => (hlabels l hl).mono hd.2
  | .decl id, hq => by
    rw [outlined]
    refine single_leads (.of_text (declaration_holds hr nofun fun d e hd he => ?_))
    exact hq e (.inl ⟨id, d, .self _, hd, he⟩)
  | .empty, _ => by
    rw [outlined]
    refine single_leads (.of_text (.pure fun _ => .of_clean ?_))
    exact ha.numbered.not_mentions (by decide)

theorem outlinedParts_leads (hr : ha.manner.Each env.program.Quiet recur) {C : Prop → Prop} :
    ∀ l : List Statement, (∀ s ∈ l, QuietStatement env.program s) →
      Leads env n (Tracked env.program n C) (outlinedParts recur l) fun parts s =>
        Tracked env.program n C s ∧ ∀ o ∈ parts, Nested n o.2
  | [], _ => by
    rw [outlinedParts]
    exact .pure fun s hs _ => ⟨hs, nofun⟩
  | s :: rest, hq => by
    rw [outlinedParts]
    have hs := outlined_leads hr s (hq s (.head rest))
    have hrest {C} := outlinedParts_leads hr (C := C) rest fun t ht => hq t (.tail s ht)
    refine .bind (enclosedScript_leads hs) fun part _ => .bind hrest.frame fun parts _ => ?_
    exact .pure fun s hs _ => ⟨hs.1.1, List.forall_mem_cons.2 ⟨hs.2, hs.1.2⟩⟩

theorem outlinedBody_leads (hr : ha.manner.Each env.program.Quiet recur) {C : Prop → Prop} :
    ∀ s : Option Statement, (∀ c, s = some c → QuietStatement env.program c) →
      Leads env n (Tracked env.program n C) (outlinedBody recur s) fun o s =>
        Tracked env.program n C s ∧ Nested n o.2
  | none, _ => by
    rw [outlinedBody]
    exact .pure fun s hs _ => ⟨hs, nested_code (ha.numbered.not_mentions (by decide))⟩
  | some s, hq => by
    rw [outlinedBody]
    exact enclosedScript_leads (outlined_leads hr s (hq s rfl))

theorem outlinedArms_leads (hr : ha.manner.Each env.program.Quiet recur) {C : Prop → Prop} :
    ∀ l : List (SwitchArm Statement), (∀ a ∈ l, env.program.Quiet a.label) →
      (∀ a ∈ l, ∀ c, a.body = some c → QuietStatement env.program c) →
        Leads env n (Tracked env.program n C) (outlinedArms recur l) fun arms s =>
          Tracked env.program n (fun w => (∀ l ∈ labels arms, Allowed n w l) ∧ C w) s ∧
            ∀ a ∈ arms, Nested n a.body
  | [], _, _ => by
    rw [outlinedArms]
    exact .pure fun s hs _ => ⟨{ hs with known := hs.known.imp fun h => ⟨nofun, h⟩ }, nofun⟩
  | ⟨label, body⟩ :: rest, hlabels, hbodies => by
    rw [outlinedArms]
    rw [List.forall_mem_cons] at hlabels hbodies
    refine .bind (.of_tracks (caseLabel_holds hr hlabels.1)) fun text _ => ?_
    refine .bind (outlinedBody_leads hr body hbodies.1) fun inner _ => ?_
    refine .bind (outlinedArms_leads hr rest hlabels.2 hbodies.2).frame fun arms _ => ?_
    refine .pure fun s hs _ => ⟨{ hs.1.1 with known := hs.1.1.known.imp fun h => ⟨?_, h.2.2⟩ },
      List.forall_mem_cons.2 ⟨hs.2, hs.1.2⟩⟩
    exact List.forall_mem_append.2 ⟨fun l hl => h.2.1 l (Option.mem_toList.1 hl), h.1⟩

end

end PacketC.Lower
