import PacketC.Proofs.Lower.StatementSteps
import PacketC.Proofs.Prose.Calls

/-! Statements without statements in them are code in any manner: assignments, declarations and
calls. Only an assignment to a field of a header applies a macro of its own. -/

namespace PacketC.Lower

open Code

variable {env : Env} {M : Manner env} {A : ExprId → Prop} {C : M.World → Prop} {w : M.World}
  {recur : Recur}

section Parts

variable (hA : M.Admits A) (hS : M.Supplied) (hr : M.Each A recur) {l : PacketField} {src : Expr}
  {id : ExprId} {name : String}

/-- A line that is there if traces are asked for. -/
theorem piece_trace {traced : Bool} {trace : String} (h : M.Piece trace w) :
    ∀ line ∈ if traced then [trace] else [], M.Piece line w := by
  intro line hline
  split at hline
  · rw [List.mem_singleton.1 hline]
    exact h
  · cases hline

/-! ### Fields of at most 32 bits -/

/-- The copy of a scalar declares it, and the field is set to it. -/
theorem announces_copied (hgrants : M.Grants l) {m storage : String} (hs : M.Piece storage w)
    {trace : List String} (ht : ∀ line ∈ trace, M.Piece line w) :
    M.Announces m (Text.unlines ([s!"uint32_t {m};", s!"memcpy(&{m}, {storage}, {l.bytes});"] ++
      setField l m :: trace)) w := by
  refine (Manner.announcesFixed m rfl rfl).unlines (List.forall_mem_cons.2 ⟨fun hm => ?_,
    List.forall_mem_cons.2 ⟨fun hm => (hgrants.set hm.piece).piece, fun line h _ => ht line h⟩⟩)
  exact (((M.piece.opens rfl).arg hm.piece rfl).arg hs rfl).close (M.piece.number _) rfl

theorem piece_shortFieldTrace (hl : M.Field l) (hgrants : M.Grants l) :
    M.Piece (shortFieldTrace l) w :=
  (((M.piece.opens rfl).arg hl.header.piece rfl).arg hl.field.piece rfl).last
    (((M.piece.opens rfl).arg (M.piece.number _) rfl).close hgrants.value.piece rfl)

include hS hr in
theorem storeScalar_holds (hl : M.Field l) (hgrants : M.Grants l) (hmem : src ∈ env.program.exprs)
    (hsrc : A src.id) : M.Holds C (storeScalar recur l src) M.Code := by
  have hvalue : M.Holds C (shortFieldValue recur l src) fun r w => ∀ trace : List String,
      (∀ line ∈ trace, M.Piece line w) →
        M.Code (Text.unlines (r.1 ++ setField l r.2 :: trace)) w := by
    unfold shortFieldValue
    split
    · rename_i path hpath
      have hpath : src.path? = some path := by
        split at hpath
        · cases hpath
        · exact hpath
      have hpath := M.names (.path hmem (node_of_path? hpath))
      refine .bind (hS.freshName (M.hint (by decide))) fun name _ => ?_
      exact .bind (addressedPath_holds hpath) fun storage _ => .pure fun h trace ht =>
        hS.announced h.2.1 (announces_copied hgrants h.1.piece ht)
    · exact .bind (hr hsrc _) fun value _ => .pure fun h trace ht =>
        M.code.unlines (hgrants.set h.1.piece) ht
  exact .bind hvalue fun r _ => .traces fun b => .pure fun h =>
    h.1 _ (piece_trace (piece_shortFieldTrace hl hgrants))

/-! ### Wider fields -/

structure ByteSource.Written (M : Manner env) (b : ByteSource) (w : M.World) : Prop where
  buffer : M.Text b.buffer w
  bytes : M.Text b.bytes w

theorem bare_fieldBytes (l : PacketField) {varying : String} (h : M.Bare varying) :
    M.Bare (fieldBytes l varying) := by
  unfold fieldBytes
  split
  · exact h
  · exact M.bare.number _

include hr in
theorem expressionSource_holds (hid : A id) (bytes : Nat) :
    M.Holds C (do return ⟨← recur id .expanded, toString bytes⟩) (ByteSource.Written M) :=
  .bind (hr hid _) fun _ _ => .pure fun h => ⟨h.1, Manner.Bare.text (M.bare.number _)⟩

/-- The buffer for a field of a header that the parser keeps is declared and filled. -/
theorem announces_parserBuffer {path id : String} (hpath : M.Bare path) (hid : M.Bare id)
    (m : String) (bytes : Nat) : M.Announces m (s!"uint8_t {m}[{bytes}];\n" ++
      s!"EXTRACT_BYTEBUF_BUFFER(pstate->{path}, pstate->{path}_var, {id}, {m});") w :=
  (Manner.announcesBytes m bytes rfl rfl).last fun hm => Manner.Bare.piece (((((M.bare.opens
    rfl).arg hpath rfl).lengthen (hpath.longer rfl) rfl).arg hid rfl).close hm rfl)

include hA hS hr in
theorem memberSource_holds (l : PacketField) {m : Member} (hsrc : env.At src.id src)
    (hnode : src.node = .member m) (hid : A src.id) :
    M.Holds C (memberSource recur l src m) (ByteSource.Written M) := by
  refine .bind (hS.nameOf (M.hint (by decide)) (by decide)) fun buffer _ => ?_
  split
  · rename_i ref href
    refine .look fun s hs => ?_
    have hfield : M.Field s := Manner.packetField hs
    have hgrants := hA.field hid hsrc (by simp [Expr.fieldRef?, Expr.member?, hnode, href]) hs
    refine .hoist_then (fun h => hS.announced h.1 (hgrants.packetBuffer _ _))
      (.pure fun h => ⟨h.1.text, Manner.Bare.text (bare_fieldBytes l ?_)⟩)
    exact (M.bare.opens rfl).close hfield.headerId rfl
  · refine .look fun base hbase => ?_
    split
    · rename_i path hpath
      have hid := M.texts (.parserField (Program.mem_of_expr hsrc) hnode hbase hpath)
      have hname : M.Bare path.name := Manner.path hbase hpath
      refine .ask _ (.hoist_then (fun h => hS.announced h.1 (announces_parserBuffer hname hid _ _))
        (.pure fun h => ⟨h.1.text, Manner.Bare.text (bare_fieldBytes l ?_)⟩))
      exact (M.bare.opens rfl).joined (hname.longer rfl)
    · exact expressionSource_holds hr hid _

theorem announces_byteArray (m : String) (base bytes : Nat) (value : Int) :
    M.Announces m s!"uint8_t {m}[{bytes}] = {Literal.byteArray base value bytes};" w :=
  (Manner.announcesBytes m bytes rfl rfl).close (fun _ => M.piece.byteArray _ _ _) rfl

include hS hr in
theorem plainSource_holds (l : PacketField) (hmem : src ∈ env.program.exprs) (hsrc : A src.id) :
    M.Holds C (plainSource recur l src) (ByteSource.Written M) := by
  unfold plainSource
  split
  · rename_i path hnode
    exact .bind (addressedPath_holds (M.names (.path hmem hnode))) fun storage _ => .pure fun h =>
      ⟨h.1, Manner.Bare.text (M.bare.number _)⟩
  · refine .bind (hS.nameOf (M.hint (by decide)) (by decide)) fun buffer _ => ?_
    exact .hoist_then (fun h => hS.announced h.1 (announces_byteArray ..)) (.pure fun h =>
      ⟨h.1.text, Manner.Bare.text (M.bare.number _)⟩)
  · exact expressionSource_holds hr hsrc _

include hA hS hr in
theorem byteSource_holds (l : PacketField) (hsrc : env.At src.id src)
    (hid : A src.id) : M.Holds C (byteSource recur l src) (ByteSource.Written M) := by
  have hplain : M.Holds C (plainSource recur l src) (ByteSource.Written M) :=
    plainSource_holds hS hr l (Program.mem_of_expr hsrc) hid
  unfold byteSource
  split
  · rename_i m hmember
    split
    · exact memberSource_holds hA hS hr l hsrc (node_of_member? hmember) hid
    · exact hplain
  · exact hplain

theorem bare_lengthLines (hl : M.Field l) : ∀ line ∈ lengthLines l, M.Bare line := by
  have hheader := hl.headerId
  unfold lengthLines
  split
  · refine List.forall_mem_cons.2 ⟨?_, List.forall_mem_singleton.2 ?_⟩
    · exact (M.bare.opens rfl).close hheader rfl
    · exact ((M.bare.opens rfl).arg hheader rfl).last
        (((M.bare.opens rfl).arg (M.bare.number _) rfl).close hheader rfl)
  · exact nofun

/-- Lines in front of code. -/
theorem code_unlines {before after : List String} {text : String}
    (hbefore : ∀ line ∈ before, M.Bare line) (h : M.Code text w)
    (hafter : ∀ line ∈ after, M.Piece line w) :
    M.Code (Text.unlines (before ++ text :: after)) w := by
  cases before with
  | nil => exact M.code.unlines h hafter
  | cons line before =>
    rw [List.forall_mem_cons] at hbefore
    refine M.code.unlines hbefore.1.code (List.forall_mem_append.2 ⟨fun line hline => ?_, ?_⟩)
    · exact (hbefore.2 line hline).piece
    · exact List.forall_mem_cons.2 ⟨h.piece, hafter⟩

/-- The store, with the lines around it. -/
theorem code_storeBytes (hl : M.Field l) (hgrants : M.Grants l) {b : ByteSource}
    (hb : b.Written M w) (traced : Bool) : M.Code (Text.unlines (lengthLines l ++
      modifyField l b.buffer b.bytes :: if traced then [wideFieldTrace l b] else [])) w := by
  refine code_unlines (bare_lengthLines hl) (hgrants.modify hb.buffer.piece hb.bytes.piece)
    (piece_trace ?_)
  exact ((((M.piece.opens rfl).arg hb.buffer.piece rfl).arg hb.bytes.piece rfl).arg
    hl.header.piece rfl).last ((M.piece.opens rfl).close hl.field.piece rfl)

include hA hS hr in
theorem storeBytes_holds (hl : M.Field l) (hgrants : M.Grants l)
    (hsrc : env.At src.id src) (hid : A src.id) :
    M.Holds C (storeBytes recur l src) M.Code :=
  .bind (byteSource_holds hA hS hr l hsrc hid) fun _ _ => .traces fun traced =>
    .pure fun h => code_storeBytes hl hgrants h.1 traced

/-! ### Headers and variables -/

include hr in
theorem copyHeader_holds {dst : Expr} (hdst : A dst.id) (hsrc : A src.id) :
    M.Holds C (copyHeader recur dst src) M.Code := by
  refine .bind (headerSlot_holds hr hdst _) fun d _ => ?_
  refine .bind (headerSlot_holds hr hsrc _) fun s _ => .traces fun traced => .pure fun h => ?_
  have hs := h.1.piece
  have hd := h.2.1.piece
  refine M.code.unlines ?_ (piece_trace ?_)
  · exact (((M.code.opens rfl).arg hd rfl).arg hs rfl).last ((M.piece.opens rfl).close hs rfl)
  · exact (((M.piece.opens rfl).arg hd rfl).arg hs rfl).last
      ((((M.piece.opens rfl).arg hs rfl).arg hd rfl).close hs rfl)

/-- A value goes through a variable of the type that it is stored in. -/
theorem announces_stored {type : String} (htype : TypeText env.toTypeScope type) (m : String)
    {d s : String} (hd : M.Piece d w) (hs : M.Piece s w) :
    M.Announces m s!"{type} {m} = {s};\n{d} = {m};" w :=
  (((Manner.announcesType m htype).arg (fun _ => hs) rfl).arg (fun _ => hd) rfl).close
    Manner.Bare.piece rfl

include hS hr in
theorem storeVariable_holds {dst : Expr} (hdst : A dst.id) (hsrc : A src.id) :
    M.Holds C (storeVariable recur dst src) M.Code := by
  refine .bind (hr hdst _) fun d _ => .bind (hr hsrc _) fun s _ => ?_
  split
  · refine .bind (.typeText _) fun type htype => ?_
    split
    · refine .traces fun traced => .pure fun ⟨htype, hs, hd, _⟩ => ?_
      refine M.code.unlines ?_ (piece_trace ?_)
      · exact ((M.code.start hd.code rfl).arg htype.piece rfl).close hs.piece rfl
      · exact ((M.piece.opens rfl).arg hd.piece rfl).close hd.piece rfl
    · refine .bind (hS.freshName (M.hint (by decide))) fun m _ => .pure fun ⟨hm, _, hs, hd, _⟩ => ?_
      exact hS.announced hm (announces_stored (typeText_returns htype) m hd.piece hs.piece)
  · refine .traces fun traced => .pure fun h => ?_
    have hs := h.1.piece
    have hd := h.2.1.piece
    refine M.code.unlines ?_ (piece_trace ?_)
    · exact (((M.code.opens rfl).arg hd rfl).arg hs rfl).close (M.piece.number _) rfl
    · exact (((((M.piece.opens rfl).arg hs rfl).arg (M.piece.number _) rfl).arg hs rfl).arg hd
        rfl).close (M.piece.number _) rfl

include hA hS hr in
theorem assign_holds {left right : ExprId} (hleft : A left) (hright : A right) :
    M.Holds C (assign recur left right) M.Code := by
  refine .look fun dst hdst => .look fun src hsrc => ?_
  have hd : A dst.id := hA.wellFormed.id_eq hdst ▸ hleft
  have hs : A src.id := hA.wellFormed.id_eq hsrc ▸ hright
  split
  · rename_i ref href
    refine .look fun l hl => ?_
    have hgrants := hA.field hleft hdst href hl
    have hl : M.Field l := Manner.packetField hl
    split
    · exact storeScalar_holds hS hr hl hgrants (Program.mem_of_expr hsrc) hs
    · exact storeBytes_holds hA hS hr hl hgrants ((hA.wellFormed.id_eq hsrc).symm ▸ hsrc) hs
  · refine .ask _ ?_
    split
    · exact copyHeader_holds hr hd hs
    · split
      · exact storeVariable_holds hS hr hd hs
      · refine .bind (hr hleft _) fun d _ => .bind (hr hright _) fun s _ => .pure fun h => ?_
        exact (M.code.start h.2.1.code rfl).close h.1.piece rfl

/-! ### Declarations -/

theorem declaredText_holds (resolveNames : Bool) (ty : Ty) (hname : M.Bare name) :
    M.Holds C (declaredText resolveNames ty name) fun text _ => ∀ w, M.Piece text w :=
  .bind (.typeTextIn _ ty) fun _ _ => .pure fun h => M.declare h.1 hname

include hr in
theorem variableDecl_holds (ty : Ty) (hname : M.Bare name) {initializer : Option ExprId}
    (hinit : ∀ e, initializer = some e → A e) :
    M.Holds C (variableDecl recur ty name initializer) M.Code := by
  have hbool : ∀ {w value}, M.Piece value w → M.Code s!"bool {name} = {value};" w := fun hvalue =>
    (M.code.start (M.always fun _ => (M.piece.opens rfl).last hname.piece) rfl).close hvalue rfl
  refine .ask _ ?_
  split
  · exact .pure fun _ => M.code.fixed rfl
  · split
    · dsimp only
      split
      · exact .bind (hr (hinit _ rfl) _) fun _ _ => .pure fun h => hbool h.1.piece
      · exact .pure fun _ => hbool (M.piece.fixed rfl)
    · refine .bind (declaredText_holds _ ty hname) fun declared _ => ?_
      split
      · exact .pure fun h => (M.code.start (M.always h.1) rfl).whole
      · refine .bind (hr (hinit _ rfl) _) fun value _ => ?_
        split
        · exact .pure fun h => (((M.code.start (M.always h.2.1) rfl).arg hname.piece rfl).arg
            h.1.piece rfl).close (M.piece.number _) rfl
        · exact .pure fun h => (M.code.start (M.always h.2.1) rfl).close h.1.piece rfl

/-- An instance is declared and set up under the name of its type. -/
theorem instanceLines_holds {base : String} (hbase : ∀ {w}, C w → M.Bare base)
    (hname : M.Bare name) :
    M.Holds C (do
      let type := base ++ "_t"
      hoist s!"extern void {type}_init({type}*);"
      return s!"{type} {name};\n{type}_init(&{name});") M.Code := by
  have htype : ∀ {w}, C w → M.Bare (base ++ "_t") := fun h => (hbase h).longer rfl
  refine .hoist_then (fun h => ?_) (.pure fun h => ?_)
  · exact (((M.bare.opens rfl).lengthen ((htype h).longer rfl) rfl).close (htype h) rfl).code
  · have hdecl : ∀ {w}, M.Code (base ++ "_t" ++ " " ++ name) w := M.always fun _ =>
      (M.piece.start (htype h).piece rfl).last hname.piece
    exact ((M.code.start hdecl rfl).lengthen ((htype h).longer rfl).piece rfl).close hname.piece rfl

theorem instanceDecl_holds (ty : Ty) (hname : M.Bare name) :
    M.Holds C (instanceDecl ty name) M.Code := by
  unfold instanceDecl
  dsimp only
  split
  · simp only [map_eq_pure_bind, bind_assoc, pure_bind]
    refine .look fun t ht => instanceLines_holds (fun _ => M.names (.type ?_)) hname
    exact Program.mem_of_lookup ht
  · exact .bind (.typeTextIn _ _) fun base _ => instanceLines_holds And.left hname

include hr in
theorem constDecl_holds (ty : Ty) (hname : M.Bare name) {value : ExprId} (hvalue : A value) :
    M.Holds C (constDecl recur ty name value) M.Code := by
  have hconst : ∀ {w declared text}, (∀ w, M.Piece declared w) → M.Piece text w →
      M.Code s!"const {declared} = {text};" w := fun hdeclared htext =>
    (M.code.start (M.always fun w => (M.piece.opens rfl).last (hdeclared w)) rfl).close htext rfl
  refine .bind (declaredText_holds _ ty hname) fun declared _ => .look fun e _ => ?_
  dsimp only
  split
  · exact .pure fun h => hconst h.1 (M.piece.byteArray _ _ _)
  · exact .bind (hr hvalue _) fun text _ => .pure fun h => hconst h.2.1 h.1.piece

include hr in
theorem declaration_holds {id : DeclId} {rename : Option String}
    (hrename : ∀ name ∈ rename, M.Bare name)
    (hinit : ∀ d e, env.program.decl id = .ok d → d.body.StartsFrom e → A e) :
    M.Holds C (declaration recur id rename) M.Code := by
  refine .look fun d hd => ?_
  have hname : M.Bare (rename.getD d.name) := by
    cases rename with
    | none => exact M.names (.decl (Program.mem_of_lookup hd))
    | some name => exact hrename name rfl
  dsimp only
  split <;> rename_i hbody
  · rename_i ty initializer
    refine variableDecl_holds hr ty hname ?_
    rintro e rfl
    exact hinit d e hd (hbody ▸ .initializer ty e)
  · exact instanceDecl_holds _ hname
  · exact .bind (.typeText _) fun type _ => .pure fun h =>
      M.always fun _ => (M.piece.start h.1.piece rfl).last hname.piece
  · rename_i ty value
    exact constDecl_holds hr ty hname (hinit d value hd (hbody ▸ .value ty value))
  · exact .note_then _ (.pure fun _ => M.code.fixed rfl)
  · exact .pure fun _ => M.code.fixed rfl
  · exact .pure fun _ => M.code.fixed rfl

/-! ### Calls -/

include hA hr in
theorem sendHeader_holds {args : List ExprId} (hargs : ∀ a ∈ args, A a) :
    M.Holds C (sendHeader recur args) M.Code := by
  unfold sendHeader
  split
  · exact .throw
  · rename_i arg rest
    refine .look fun e he => .bind (headerSlot_holds hr ?_ _) fun index _ => .pure fun h => ?_
    · exact hA.wellFormed.id_eq he ▸ hargs arg (.head rest)
    · refine M.code.unlines (M.code.fixed rfl) (List.forall_mem_cons.2 ⟨?_, ?_⟩)
      · exact (M.piece.opens rfl).close h.1.piece rfl
      · exact List.forall_mem_singleton.2 (M.piece.fixed rfl)

theorem bare_validity {method state : String} (h : validity? method = some state) :
    M.Bare state := by
  unfold validity? at h
  split at h <;> cases h <;> exact M.bare.fixed rfl

theorem validityTrace_holds {method : Expr} (hmem : method ∈ env.program.exprs) :
    M.Holds C (validityTrace method) fun lines _ => ∀ line ∈ lines, M.Bare line := by
  refine .traces fun b => ?_
  split
  · rename_i m hmember
    split
    · exact .pure fun _ => nofun
    · rename_i state hstate
      have hstate : M.Bare state := bare_validity hstate
      have htrace : ∀ {header : String}, M.Bare header →
          M.Holds C
            (pure [s!"debug(\"   :: Setting header instance \" T4LIT({header},header) \" as \" " ++
              s!"T4LIT({state},success) \"\\n\");"])
            fun lines _ => ∀ line ∈ lines, M.Bare line := by
        intro header hheader
        refine .pure fun _ => List.forall_mem_singleton.2 ?_
        exact ((M.bare.opens rfl).arg hheader rfl).last ((M.bare.opens rfl).close hstate rfl)
      refine .look fun receiver _ => ?_
      dsimp only
      split
      · simp only [map_eq_pure_bind, bind_assoc, pure_bind]
        exact .look fun i hi => htrace (Manner.header hi).1
      · exact htrace (M.names (.member hmem (node_of_member? hmember)))
  · exact .pure fun _ => nofun

include hr in
theorem callLine_holds (hid : A id) (e : Expr) : M.Holds C (callLine recur id e) M.Code := by
  refine .bind (hr hid _) fun text _ => ?_
  split
  · exact .note_then _ (.pure fun _ => M.code.fixed rfl)
  · exact .pure fun h => (M.code.start h.1.code rfl).whole

/-- The first line declares the list, and the others fill it. -/
theorem announces_list {fields : List PacketField} (hfields : ∀ f ∈ fields, M.Field f)
    (m : String) : M.Announces m (Text.unlines (Digest.listLines m fields)) w := by
  refine (Manner.announcesFixed m rfl rfl).unlines fun line hline hm => Manner.Bare.piece ?_
  rcases List.mem_append.1 hline with hline | hline
  · simp only [List.mem_cons, List.not_mem_nil, or_false] at hline
    rcases hline with rfl | rfl | rfl
    · exact (M.bare.start hm rfl).close (M.bare.number _) rfl
    · exact (M.bare.start hm rfl).close hm rfl
    · exact (M.bare.start hm rfl).close hm rfl
  · obtain ⟨⟨f, i⟩, hmem, hline⟩ := List.mem_flatMap.1 hline
    have hfield := (hfields f (List.fst_mem_of_mem_zipIdx hmem)).fieldInstance
    simp only [List.mem_cons, List.not_mem_nil, or_false] at hline
    rcases hline with rfl | rfl <;>
      exact ((M.bare.start hm rfl).arg (M.bare.number i) rfl).close hfield rfl

include hS hr in
theorem statementText_holds (id : ExprId) {e : Expr} {call : Call} (he : e ∈ env.program.exprs)
    (hnode : e.node = .call call) (hargs : ∀ a ∈ call.args, A a) :
    M.Holds C (Digest.statementText recur id call) M.Code := by
  refine .bind (ofCall_holds hr fun h => hargs _ (h ▸ .head _)) fun d hd => ?_
  have hd : d.Written M := (found_of_ofCall hd).written he hnode
  refine .bind (hS.nameOf (M.hint (by decide)) (by decide)) fun list _ => ?_
  refine .after (announce_holds hd fun h => h.2.1) fun _ _ => ?_
  refine .hoist_then (fun h => hS.announced h.1 (announces_list hd.fields list))
    (.after settle_holds fun _ _ => .pure fun h => ?_)
  exact (((M.code.opens rfl).arg hd.name.piece rfl).arg h.2.1.piece rfl).close h.1.piece rfl

include hr in
/-- A call by itself, with the trace in front of it. -/
theorem tracedCall_holds (hid : A id) (e : Expr) {method : Expr}
    (hmem : method ∈ env.program.exprs) :
    M.Holds C (do
      let trace ← validityTrace method
      return Text.unlines (trace ++ [← callLine recur id e])) M.Code :=
  .bind (validityTrace_holds hmem) fun _ _ => .bind (callLine_holds hr hid e) fun _ _ =>
    .pure fun h => code_unlines h.2.1 h.1 nofun

include hA hS hr in
theorem runCall_holds (hid : A id) : M.Holds C (runCall recur id) M.Code := by
  refine .look fun e he => ?_
  split
  · rename_i call hnode
    have hargs : ∀ a ∈ call.args, A a := fun a ha => hA.part hid ⟨e, he, hnode ▸ .arg ha⟩
    refine .look fun method hmethod => ?_
    split
    · exact statementText_holds hS hr e.id (Program.mem_of_expr he) hnode hargs
    · refine .config (.ask _ ?_)
      split
      · exact sendHeader_holds hA hr hargs
      · exact tracedCall_holds hr hid e (Program.mem_of_expr hmethod)
  · exact .throw

/-! ### Parts of statements -/

theorem bare_of_controlLock {lock : Option String} (h : Returns env controlLock lock) :
    ∀ name ∈ lock, M.Bare name := by
  obtain ⟨_, ⟨_, _, hread⟩, h⟩ := h.of_bind
  cases hread
  split at h
  · rename_i label typeName locals hblock
    obtain ⟨id, _, hmem⟩ := Option.bind_eq_some_iff.1 hblock
    have hname : M.Bare typeName := M.names (.block (Array.mem_of_getElem? hmem))
    rintro name rfl
    cases h.of_pure
    exact (M.bare.opens rfl).joined (hname.longer rfl)
  · obtain ⟨_, _, h⟩ := h.of_bind
    cases h.of_pure
    exact nofun

theorem controlLock_holds : M.Holds C controlLock fun lock _ => ∀ name ∈ lock, M.Bare name := by
  have hpasses : M.Holds C controlLock fun _ _ => True := by
    refine .known (a := env) rfl ?_
    split
    · exact .pure fun _ => trivial
    · exact .note_then _ (.pure fun _ => trivial)
  exact .of_returns hpasses fun _ hret _ _ => bare_of_controlLock hret

include hr in
theorem caseLabel_holds (hid : A id) :
    M.Holds C (caseLabel recur id) fun label w => ∀ text ∈ label, M.Text text w := by
  refine .look fun e _ => ?_
  split
  · exact .pure fun _ => nofun
  · refine .bind (hr hid _) fun text _ => ?_
    have hlabel : M.Holds (fun w => M.Text text w ∧ C w) (Pure.pure (some text)) fun label w =>
        ∀ text ∈ label, M.Text text w := .pure fun h t ht => by
      cases ht
      exact h.1
    dsimp only
    split
    · exact .note_then _ hlabel
    · exact hlabel

end Parts

end PacketC.Lower
