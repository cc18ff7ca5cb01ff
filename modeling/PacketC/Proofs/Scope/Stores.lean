import PacketC.Proofs.Scope.Frames

/-! Assignments keep a name in order. The bytes to store may be declared in front of the statement;
a scalar that is copied first is declared by the statement itself. -/

namespace PacketC.Lower

open Code

variable {env : Env} {n : String} {P : State → Prop} {recur : Recur} {ha : Apart env.toTypeScope n}
  (hr : ha.manner.Each env.program.Quiet recur) {src : Expr}

/-! ### Fields of at most 32 bits -/

theorem addressedPath_leads (ha : Apart env.toTypeScope n) {path : Path}
    (h : ¬ Mentions n path.name) :
    Leads env n P (addressedPath path) fun storage s => P s ∧ ¬ Mentions n storage := by
  have hparameter := bare_parameterStorage (M := ha.manner) h
  unfold addressedPath
  split
  · exact .pure fun _ hs _ => ⟨hs, hparameter⟩
  · refine .isLocal _ fun b => ?_
    split
    · exact .pure fun _ hs _ => ⟨hs, bare_localStorage (M := ha.manner) h⟩
    · exact .pure fun _ hs _ => ⟨hs, hparameter⟩

include hr in
theorem storeScalar_leads {l : PacketField} (hl : ha.manner.Field l) (hgrants : ha.manner.Grants l)
    (hmem : src ∈ env.program.exprs) (hq : env.program.Quiet src.id) :
    Leads env n Opened (storeScalar recur l src) fun text => Settled n [.code text] := by
  have hvalue : Leads env n Opened (shortFieldValue recur l src) fun r s => ∀ trace : List String,
      (∀ line ∈ trace, Covered n (Declared n s) line) →
        Settled n [.code (Text.unlines (r.1 ++ setField l r.2 :: trace))] s := by
    unfold shortFieldValue
    split
    · rename_i path hpath
      have hpath : src.path? = some path := by
        split at hpath
        · cases hpath
        · exact hpath
      have hpath := ha.names _ (.path hmem (node_of_path? hpath))
      refine .opened (.freshName fun m => .bind (addressedPath_leads ha hpath) fun storage _ => ?_)
      refine .pure fun s hs hclear trace ht => hs.1.settled hclear ?_
      exact announces_copied hgrants (covered_of_clean hs.2) ht
    · refine .opened (.bind (.of_tracks (hr hq _)) fun value _ => ?_)
      refine .pure fun s hs _ trace ht => hs.toOrdered.settled_of_allowed ?_
      exact ha.manner.code.unlines (hgrants.set hs.known.here.1.covered) ht
  exact .bind hvalue fun r _ => .traces fun b => .pure fun s hs _ =>
    hs _ (piece_trace (piece_shortFieldTrace hl hgrants))

/-! ### Wider fields -/

variable (ha) in
/-- What is found in the frame is known. -/
abbrev Found (b : ByteSource) : State → Prop := Steady n (b.Written ha.manner)

include hr in
theorem found_expression {id : ExprId} (hq : env.program.Quiet id) (bytes : Nat) :
    Leads env n Opened (do return ⟨← recur id .expanded, toString bytes⟩) (Found ha) :=
  (Leads.of_tracks (expressionSource_holds hr hq bytes)).opened.after fun _ _ hs =>
    ⟨hs.toOrdered, hs.known.imp And.left⟩

/-- A buffer that is declared in front of the statement. -/
theorem found_declared {m code bytes : String} (hcode : ∀ {w}, Announces n w m code)
    (hbytes : ¬ Mentions n bytes) :
    Leads env n (fun s => Opened s ∧ m ∈ s.memory.names.used)
      (do hoist code; return ⟨m, bytes⟩) (Found ha) := by
  refine .before (.bind (.declare fun _ => hcode) fun _ _ => ?_) fun s hs => hs.1.coined hs.2
  exact .pure fun s hs _ =>
    ⟨hs.toOrdered, hs.known.imp fun h => ⟨h.1, .of_clean hbytes⟩⟩

include hr in
theorem memberSource_leads (l : PacketField) {m : Member} (hmem : src ∈ env.program.exprs)
    (hnode : src.node = .member m) (hq : env.program.Quiet src.id) :
    Leads env n Opened (memberSource recur l src m) (Found ha) := by
  refine .nameOf fun buffer => ?_
  split
  · refine .look fun s hs => ?_
    have hfield : ha.manner.Field s := Manner.packetField hs
    refine found_declared ((ha.grants hs).packetBuffer buffer _) ?_
    exact bare_fieldBytes l ((ha.manner.bare.opens rfl).close hfield.headerId rfl)
  · refine .look fun base hb => ?_
    split
    · rename_i path hpath
      have hid := ha.texts _ (.parserField hmem hnode hb hpath)
      have hname : ha.manner.Bare path.name := Manner.path hb hpath
      refine .ask _ (found_declared (announces_parserBuffer hname hid buffer _) ?_)
      exact bare_fieldBytes l ((ha.manner.bare.opens rfl).joined (hname.longer rfl))
    · exact .before (found_expression hr hq _) fun s hs => hs.1

include hr in
theorem plainSource_leads (l : PacketField) (hmem : src ∈ env.program.exprs)
    (hq : env.program.Quiet src.id) : Leads env n Opened (plainSource recur l src) (Found ha) := by
  have hbytes : ¬ Mentions n (toString l.bytes) := covered_toString (C := False) ha.numbered _
  unfold plainSource
  split
  · rename_i path hnode
    refine .bind (addressedPath_leads ha (ha.names _ (.path hmem hnode))) fun storage _ => ?_
    exact .pure fun s hs _ => ⟨hs.1.ordered, fun _ _ => ⟨.of_clean hs.2, .of_clean hbytes⟩⟩
  · exact .nameOf fun m => found_declared (announces_byteArray (M := ha.manner) m _ _ _) hbytes
  · exact found_expression hr hq _

include hr in
theorem byteSource_leads (l : PacketField) (hmem : src ∈ env.program.exprs)
    (hq : env.program.Quiet src.id) : Leads env n Opened (byteSource recur l src) (Found ha) := by
  unfold byteSource
  split
  · rename_i m hm
    split
    · exact memberSource_leads hr l hmem (node_of_member? hm) hq
    · exact plainSource_leads hr l hmem hq
  · exact plainSource_leads hr l hmem hq

include hr in
theorem storeBytes_leads {l : PacketField} (hl : ha.manner.Field l) (hgrants : ha.manner.Grants l)
    (hmem : src ∈ env.program.exprs) (hq : env.program.Quiet src.id) :
    Leads env n Opened (storeBytes recur l src) fun text => Settled n [.code text] :=
  .bind (byteSource_leads hr l hmem hq) fun _ _ => .traces fun traced => .pure fun _ hs _ =>
    hs.toOrdered.settled_of_allowed (code_storeBytes hl hgrants hs.known.here traced)

/-! ### Variables -/

include hr in
theorem storeVariable_leads {dst : Expr} (hdst : env.program.Quiet dst.id)
    (hsrc : env.program.Quiet src.id) :
    Leads env n Opened (storeVariable recur dst src) fun text => Settled n [.code text] := by
  have hn := ha.numbered
  refine .opened (.bind (.of_tracks (hr hdst _)) fun d _ => .bind (.of_tracks (hr hsrc _)) ?_)
  intro s _
  split
  · refine .bind (.of_tracks (Judgement.Holds.typeText (M := ha.manner) _)) fun type htype => ?_
    split
    · refine .traces fun traced => .pure fun t ht _ => ht.toOrdered.settled_of_allowed ?_
      obtain ⟨hclean, hs, hd, _⟩ := ht.known.here
      refine (sealed_allowed hn).unlines ?_ (piece_trace (M := ha.manner) ?_)
      · exact (((sealed_allowed hn).start hd rfl).arg (covered_of_clean hclean) rfl).close
          hs.covered rfl
      · exact ((Joint.ofList hn rfl).arg hd.covered rfl).close hd.covered rfl
    · refine .freshName fun m => .pure fun t ht hclear => ht.settled hclear ?_
      obtain ⟨_, hs, hd, _⟩ := ht.known.here
      exact announces_stored (M := ha.manner) (typeText_returns htype) m hd.covered hs.covered
  · refine .traces fun traced => .pure fun t ht _ => ht.toOrdered.settled_of_allowed ?_
    obtain ⟨hs, hd, _⟩ := ht.known.here
    have hbytes : ∀ bytes : Nat, Covered n (Declared n t) (toString bytes) := covered_toString hn
    refine (sealed_allowed hn).unlines ?_ (piece_trace (M := ha.manner) ?_)
    · exact (((Ready.ofList hn rfl).arg hd.covered rfl).arg hs.covered rfl).close (hbytes _) rfl
    · exact (((((Joint.ofList hn rfl).arg hs.covered rfl).arg (hbytes _) rfl).arg hs.covered
        rfl).arg hd.covered rfl).close (hbytes _) rfl

include hr in
theorem assign_leads {left right : ExprId} (hleft : env.program.Quiet left)
    (hright : env.program.Quiet right) :
    Leads env n Opened (assign recur left right) fun text => Settled n [.code text] := by
  refine .look fun dst hdst => .look fun src hsrc => ?_
  have hmem := Program.mem_of_expr hsrc
  have hdq : env.program.Quiet dst.id := ha.wellFormed.id_eq hdst ▸ hleft
  have hsq : env.program.Quiet src.id := ha.wellFormed.id_eq hsrc ▸ hright
  split
  · refine .look fun l hl => ?_
    split
    · exact storeScalar_leads hr (Manner.packetField hl) (ha.grants hl) hmem hsq
    · exact storeBytes_leads hr (Manner.packetField hl) (ha.grants hl) hmem hsq
  · refine .ask _ ?_
    split
    · exact .of_text (copyHeader_holds hr hdq hsq)
    · split
      · exact storeVariable_leads hr hdq hsq
      · refine .of_text (.bind (hr hleft _) fun d _ => .bind (hr hright _) fun s _ => .pure ?_)
        exact fun h => ((sealed_allowed ha.numbered).start h.2.1 rfl).close h.1.covered rfl

end PacketC.Lower
