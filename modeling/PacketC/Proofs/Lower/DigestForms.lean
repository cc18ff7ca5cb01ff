import PacketC.Proofs.Code.Text
import PacketC.Proofs.Lower.Confined

/-! The two forms of a digest. As a statement it fills a list of fields that is then handed over,
and within an expression it adds the fields one by one. Either way it sends the fields among the
components of its second argument, in their order and under the same name; whatever else is among
the components is reported and changes nothing; and the wait comes last. -/

namespace PacketC.Lower.Digest

variable {argument : ExprId} {components : List Expr} {fields : List PacketField}

/-! ### What is sent -/

/-- The components of an argument: the items of a list, the values of a struct, or else the argument
itself. -/
inductive Comprises (p : Program) (argument : ExprId) : List ExprId → Prop
  | list {e : Expr} {items : List ExprId} (he : p.At argument e)
      (hnode : e.node = .list items) : Comprises p argument items
  | struct {e : Expr} {parts : List Component} (he : p.At argument e)
      (hnode : e.node = .structInit parts) : Comprises p argument (parts.map Component.value)
  | self {e : Expr} (he : p.At argument e) (hlist : ∀ items, e.node ≠ .list items)
      (hstruct : ∀ parts, e.node ≠ .structInit parts) : Comprises p argument [argument]

/-- The components of the second argument, and where those that are fields of the packet live. -/
structure Sends (p : Program) (argument : ExprId) (components : List Expr)
    (fields : List PacketField) : Prop where
  found : ∃ ids, Comprises p argument ids ∧ ids.mapM p.expr = .ok components
  placed : (components.filterMap Expr.fieldRef?).mapM p.packetField = .ok fields

/-- One error for each component that is not a field. -/
def strays (components : List Expr) : List Diagnostic :=
  (components.filter (·.fieldRef?.isNone)).map fun e =>
    ⟨.error, .unsupportedConstruct, "generating digest",
      s!"Digest field of kind {e.node.name} is not supported"⟩

variable {α : Type} {call : Call}

theorem exists_mapM {ε β : Type} {f : α → Except ε β} {l : List α} (h : ∀ a ∈ l, ∃ b, f a = .ok b) :
    ∃ bs, l.mapM f = .ok bs := by
  induction l with
  | nil => exact ⟨[], rfl⟩
  | cons a l ih =>
    obtain ⟨b, hb⟩ := h a (.head l)
    obtain ⟨bs, hbs⟩ := ih fun x hx => h x (.tail a hx)
    exact ⟨b :: bs, by rw [List.mapM_cons, hb, hbs]; rfl⟩

theorem exists_of_mapM {ε β : Type} {f : α → Except ε β} {l : List α} {bs : List β}
    (h : l.mapM f = .ok bs) : ∀ b ∈ bs, ∃ a ∈ l, f a = .ok b := by
  induction l generalizing bs with
  | nil => cases h; exact nofun
  | cons a l ih =>
    rw [List.mapM_cons] at h
    obtain ⟨b, hb, h⟩ := Program.bind_eq_ok_iff.1 h
    obtain ⟨rest, hrest, h⟩ := Program.bind_eq_ok_iff.1 h
    cases h
    rintro c (_ | ⟨_, hc⟩)
    · exact ⟨a, .head l, hb⟩
    · obtain ⟨x, hx, hfx⟩ := ih hrest c hc
      exact ⟨x, .tail a hx, hfx⟩

theorem Comprises.items_eq {p : Program} {ids : List ExprId} (h : Comprises p argument ids) :
    items p argument = .ok ids := by
  cases h with
  | list he hnode | struct he hnode =>
    simp only [items, he, hnode, bind, Except.bind]
    rfl
  | self he hlist hstruct =>
    simp only [items, he, bind, Except.bind]
    rfl

theorem exists_comprises {p : Program} {e : Expr} (he : p.At argument e) :
    ∃ ids, Comprises p argument ids := by
  by_cases hlist : ∃ items, e.node = .list items
  · obtain ⟨items, hnode⟩ := hlist
    exact ⟨items, .list he hnode⟩
  · by_cases hstruct : ∃ parts, e.node = .structInit parts
    · obtain ⟨parts, hnode⟩ := hstruct
      exact ⟨_, .struct he hnode⟩
    · exact ⟨_, .self he (not_exists.1 hlist) (not_exists.1 hstruct)⟩

theorem exists_sends {p : Program} (wf : p.WellFormed) (h : ∃ e, p.At argument e) :
    ∃ components fields, Sends p argument components fields := by
  obtain ⟨e, he⟩ := h
  obtain ⟨ids, hids⟩ := exists_comprises he
  obtain ⟨components, hcomponents⟩ : ∃ components, ids.mapM p.expr = .ok components := by
    refine exists_mapM fun id hid => ?_
    rcases digestItems_cases hids.items_eq id hid with rfl | ⟨e', he', hpart⟩
    · exact ⟨e, he⟩
    · exact wf.exists_part he' hpart
  obtain ⟨fields, hfields⟩ : ∃ fields,
      (components.filterMap Expr.fieldRef?).mapM p.packetField = .ok fields := by
    refine exists_mapM fun ref href => ?_
    obtain ⟨c, hc, href⟩ := List.mem_filterMap.1 href
    obtain ⟨id, -, hid⟩ := exists_of_mapM hcomponents c hc
    exact exists_packetField (wf.resolves hid href)
  exact ⟨components, fields, ⟨ids, hids, hcomponents⟩, hfields⟩

/-! ### Gathering the fields -/

variable {env : Env}

theorem packetFields_run {ids : List ExprId}
    (hcomponents : ids.mapM env.program.expr = .ok components)
    (hfields : (components.filterMap Expr.fieldRef?).mapM env.program.packetField = .ok fields)
    (s : State) : packetFields ids env s = (.ok fields, s.note (strays components)) := by
  induction ids generalizing components fields s with
  | nil =>
    cases hcomponents
    cases hfields
    simp [packetFields, run_pure, strays, State.note_nil]
  | cons id ids ih =>
    rw [List.mapM_cons] at hcomponents
    obtain ⟨e, he, hcomponents⟩ := Program.bind_eq_ok_iff.1 hcomponents
    obtain ⟨rest, hrest, hcomponents⟩ := Program.bind_eq_ok_iff.1 hcomponents
    cases hcomponents
    rw [packetFields, bind_of_pure (look_of_ok he)]
    cases href : e.fieldRef? with
    | some ref =>
      rw [List.filterMap_cons_some href, List.mapM_cons] at hfields
      obtain ⟨f, hf, hfields⟩ := Program.bind_eq_ok_iff.1 hfields
      obtain ⟨others, hothers, hfields⟩ := Program.bind_eq_ok_iff.1 hfields
      cases hfields
      have hstrays : strays (e :: rest) = strays rest := by simp [strays, href]
      dsimp only
      rw [bind_of_pure (look_of_ok hf), run_bind, ih hrest hothers, hstrays]
      rfl
    | none =>
      rw [List.filterMap_cons_none href] at hfields
      have hstrays : strays (e :: rest) = strays [e] ++ strays rest := by simp [strays, href]
      have hnote : strays [e] = [.error .unsupportedConstruct "generating digest"
          s!"Digest field of kind {e.node.name} is not supported"] := by simp [strays, href]; rfl
      dsimp only
      rw [hstrays, ← State.note_note, hnote, run_bind]
      exact ih hrest hfields _

theorem ofCall_run {recur : Recur} {ty : Ty} {more : List Ty} {receiver : ExprId}
    (htys : call.typeArgs = ty :: more) (hargs : call.args = [receiver, argument])
    (hsends : Sends env.program argument components fields) (s : State) :
    ofCall recur call env s =
      match recur receiver .value env s with
      | (.ok text, t) => (.ok ⟨(env.program.typeName? ty).getD ty.text, text, fields⟩,
          t.note (strays components))
      | (.error e, t) => (.error e, t) := by
  obtain ⟨⟨ids, hids, hcomponents⟩, hfields⟩ := hsends
  have hname : resolve (fun p => typeName p call.typeArgs) env =
      (pure ((env.program.typeName? ty).getD ty.text) : LowerM String) env :=
    resolve_of_ok (by rw [htys]; rfl)
  have hpair : resolve (fun _ => arguments call.args) env =
      (pure (receiver, argument) : LowerM (ExprId × ExprId)) env :=
    resolve_of_ok (by rw [hargs]; rfl)
  rw [ofCall, bind_of_pure hname, bind_of_pure hpair]
  show (recur receiver .value >>= _ : LowerM Digest) env s = _
  rw [run_bind]
  rcases recur receiver .value env s with ⟨e | text, t⟩
  · rfl
  · dsimp only
    rw [bind_of_pure (look_of_ok hids.items_eq), run_bind, packetFields_run hcomponents hfields]
    rfl

/-! ### The code around a digest -/

/-- What is hoisted before the fields are. -/
def announcement (d : Digest) (c : Config) : List String :=
  Target.controlPlaneGuard ::
    if c.emitDebugTraces then sendingTrace d.receiver :: d.fields.map fieldTrace else []

/-- All the code is hoisted, in its order. -/
def hoistAll (codes : List String) (e : Emission) : Emission :=
  codes.foldl (fun e code => e.prepend code) e

theorem hoistAll_concat (codes : List String) (code : String) (e : Emission) :
    hoistAll (codes ++ [code]) e = (hoistAll codes e).prepend code := List.foldl_append

theorem forM_hoist (code : α → String) (l : List α) (s : State) :
    (l.forM fun a => hoist (code a)) env s =
      (.ok (), { s with emission := hoistAll (l.map code) s.emission }) := by
  induction l generalizing s with
  | nil => rfl
  | cons a l ih =>
    show (hoist (code a) >>= fun _ => l.forM fun a => hoist (code a)) env s = _
    rw [run_bind]
    exact ih _

theorem announce_run (d : Digest) (s : State) : d.announce env s =
    (.ok (), { s with emission := hoistAll (d.announcement env.config) s.emission }) := by
  have htraces : traces env = (pure env.config.emitDebugTraces : LowerM Bool) env := rfl
  rw [announce, run_bind]
  show (traces >>= _ : LowerM Unit) env _ = _
  rw [bind_of_pure htraces, announcement]
  cases env.config.emitDebugTraces with
  | false => rfl
  | true =>
    show (hoist _ >>= _ : LowerM Unit) env _ = _
    rw [run_bind]
    exact forM_hoist fieldTrace d.fields _

theorem hoistAll_grows (codes : List String) (e : Emission) : e.Grows (hoistAll codes e) := by
  induction codes generalizing e with
  | nil => exact .refl e
  | cons code codes ih => exact (Emission.Grows.prepend code e).trans (ih _)

theorem post_hoistAll (codes : List String) (e : Emission) :
    (hoistAll codes e).current.post = e.current.post := by
  induction codes generalizing e with
  | nil => rfl
  | cons code codes ih =>
    rw [hoistAll, List.foldl_cons]
    refine (ih _).trans ?_
    unfold Emission.prepend
    split <;> rfl

theorem mem_hoistAll {codes : List String} {e : Emission} {x : String} :
    x ∈ (hoistAll codes e).current.pre ↔ x ∈ e.current.pre ∨ x ∈ codes := by
  induction codes generalizing e with
  | nil => simp [hoistAll]
  | cons code codes ih =>
    rw [hoistAll, List.foldl_cons]
    refine ih.trans ?_
    unfold Emission.prepend
    split
    · rename_i h
      have := List.contains_iff_mem.1 h
      grind
    · simp [or_assoc]

/-- Around the digest is what is around its receiver, with the announcement and the piece of code in
front of it and the wait behind it. -/
structure Surrounds (d : Digest) (c : Config) (piece : String) (r f : Fragment) : Prop where
  pre : r.pre <+: f.pre
  mem_pre : ∀ x, x ∈ f.pre ↔ x ∈ r.pre ∨ x ∈ d.announcement c ∨ x = piece
  post : f.post = r.post ++ [s!"sleep_millis({c.digestSleepMillis.toNat});"]

theorem surrounds_of_grows {e : Emission} (h : Emission.empty.Grows e) (c : Config) (d : Digest)
    (piece text text' : String) (kind kind' : FragmentKind) :
    let e' := (hoistAll (d.announcement c ++ [piece]) e).append
      s!"sleep_millis({c.digestSleepMillis.toNat});"
    d.Surrounds c piece ⟨kind, e.gathered.pre, text, e.gathered.post⟩
      ⟨kind', e'.gathered.pre, text', e'.gathered.post⟩ := by
  intro e'
  have hcode := hoistAll_grows (d.announcement c ++ [piece]) e
  have hall : e'.gathered = e'.current := ((h.trans hcode).trans (.append _ _)).gathered_eq
  rw [h.gathered_eq, hall]
  refine ⟨hcode.pre, fun x => ?_, ?_⟩
  · exact mem_hoistAll.trans (by rw [List.mem_append, List.mem_singleton])
  · exact congrArg (· ++ _) (post_hoistAll _ e)

/-! ### Both forms -/

/-- A digest whose fields are put together under a name of its own, in the form of the piece of
code and the text that are given. -/
def delivered (recur : Recur) (id : ExprId) (call : Call) (hint : String)
    (piece text : String → Digest → String) : LowerM String := do
  let d ← ofCall recur call
  let name ← nameOf hint id
  d.announce
  hoist (piece name d)
  settle
  return text name d

theorem delivered_of_ok {recur : Recur} {d : Digest} {s t : State}
    (hd : ofCall recur call env s = (.ok d, t)) (id : ExprId) (hint : String)
    (piece text : String → Digest → String) : let named := t.memory.names.named hint id.text
    delivered recur id call hint piece text env s =
      (.ok (text named.1 d), ⟨{ t.memory with names := named.2 },
        (hoistAll (d.announcement env.config ++ [piece named.1 d]) t.emission).append
          s!"sleep_millis({env.config.digestSleepMillis.toNat});"⟩) := by
  intro named
  have hname : nameOf hint id env t =
      (.ok named.1, t.withNames named.2) := rfl
  rw [delivered, run_bind, hd]
  dsimp only
  rw [run_bind, hname]
  dsimp only
  rw [run_bind, announce_run, hoistAll_concat]
  rfl

/-- The digest does to a session what its receiver does by itself, and then only adds to that. -/
theorem run_delivered {p : Program} {ty : Ty} {more : List Ty} {receiver : ExprId}
    (htys : call.typeArgs = ty :: more) (hargs : call.args = [receiver, argument])
    (hsends : Sends p argument components fields) (s : Session) (block : Option BlockId)
    (kind : FragmentKind) (stage : String) (id : ExprId) (hint : String)
    (piece text : String → Digest → String) {x : LowerM String}
    (hx : x (s.env p block) = delivered expr id call hint piece text (s.env p block)) :
    match s.lowerExpression p receiver block .value with
    | (.error e, _) => (s.run p block kind stage x).1 = .error e
    | (.ok r, s') => ∃ name f t, s.run p block kind stage x = (.ok f, t) ∧
        t.diagnostics = s'.diagnostics ++ strays components ∧
        let d : Digest := ⟨(p.typeName? ty).getD ty.text, r.text, fields⟩
        f.text = text name d ∧ d.Surrounds s.config (piece name d) r f := by
  have hgrows : Emission.empty.Grows
      (expr receiver .value (s.env p block) s.initial).2.emission :=
    expr_confined receiver .value s.initial
  have hcall : ofCall expr call (s.env p block) s.initial = _ :=
    ofCall_run htys hargs hsends _
  rcases hr : expr receiver .value (s.env p block) s.initial with ⟨e | r, t⟩
  · rw [hr] at hcall
    have hrun : x (s.env p block) s.initial = (.error e, t) := by
      rw [hx, delivered, run_bind, hcall]
    rw [Session.lowerExpression, Session.run_of_error hr]
    dsimp only
    rw [Session.run_of_error hrun]
  · rw [hr] at hcall hgrows
    have hrun := delivered_of_ok hcall id hint piece text
    rw [← hx] at hrun
    rw [Session.lowerExpression, Session.run_of_ok hr]
    dsimp only
    rw [Session.run_of_ok hrun]
    exact ⟨_, _, _, rfl, rfl, rfl, surrounds_of_grows hgrows ..⟩

/-! ### The list that a statement fills -/

/-- The lines that begin with the given text. -/
def assigning (target : String) (lines : List String) : List String :=
  lines.filter fun line => target.toList.isPrefixOf line.toList

def offsetLine (list : String) (i : Nat) (f : PacketField) : String :=
  s!"{list}.field_offsets[{i}] = (uint8_t*) field_desc(pd, {f.fieldInstance}).byte_addr;"

def widthLine (list : String) (i : Nat) (f : PacketField) : String :=
  s!"{list}.field_widths[{i}]  =            field_desc(pd, {f.fieldInstance}).bitwidth;"

/-- The lines give the list its length, and at each index below that the place and the width of one
and the same field. Each of these is set once, and nothing is set at any other index. -/
structure Fills (list : String) (fields : List PacketField) (lines : List String) : Prop where
  quantity : assigning s!"{list}.fields_quantity" lines =
    [s!"{list}.fields_quantity = {fields.length};"]
  offsets : ∀ i, assigning s!"{list}.field_offsets[{i}]" lines =
    (fields[i]?.map (offsetLine list i)).toList
  widths : ∀ i, assigning s!"{list}.field_widths[{i}]" lines =
    (fields[i]?.map (widthLine list i)).toList

theorem index_prefix_iff {i j : Nat} {rest : List Char} :
    Nat.toDigits 10 i ++ [']'] <+: Nat.toDigits 10 j ++ ']' :: rest ↔ i = j := by
  constructor
  · rintro ⟨t, ht⟩
    -- the digits end where the bracket is
    have hcut : ∀ (n : Nat) (r : List Char),
        (Nat.toDigits 10 n ++ ']' :: r).takeWhile (· != ']') = Nat.toDigits 10 n := by
      intro n r
      have hdigits := Code.all_toDigits_of (p := (· != ']')) (by decide) (by decide : 1 < 10)
        (by decide) n
      rw [List.takeWhile_append_of_pos (List.all_eq_true.1 hdigits),
        List.takeWhile_cons_of_neg (by decide), List.append_nil]
    rw [List.append_assoc] at ht
    have heq : Nat.toDigits 10 i = Nat.toDigits 10 j := by
      rw [← hcut i t, ← hcut j rest, ← ht, List.singleton_append]
    exact Option.some.inj ((Code.number?_decimal i).symm.trans (heq ▸ Code.number?_decimal j))
  · rintro rfl
    exact ⟨rest, by simp⟩

theorem flatMap_zipIdx {β : Type} (l : List α) (g : α → β) (i k : Nat) :
    ((l.zipIdx k).flatMap fun x => if i = x.2 then [g x.1] else []) =
      if k ≤ i then (l[i - k]?.map g).toList else [] := by
  induction l generalizing k with
  | nil => simp
  | cons a l ih =>
    rw [List.zipIdx_cons, List.flatMap_cons, ih]
    rcases Nat.lt_trichotomy i k with h | rfl | h
    · rw [if_neg (by omega), if_neg (by omega), if_neg (by omega), List.nil_append]
    · simp
    · obtain ⟨n, hn⟩ : ∃ n, i - k = n + 1 := ⟨i - k - 1, by omega⟩
      rw [if_neg (by omega), if_pos (by omega), if_pos (by omega), hn, List.getElem?_cons_succ,
        List.nil_append, show i - (k + 1) = n by omega]

/-- The lines of one field. -/
def fieldLines (list : String) (x : PacketField × Nat) : List String :=
  [offsetLine list x.2 x.1, widthLine list x.2 x.1]

theorem listLines_eq (list : String) (fields : List PacketField) :
    listLines list fields = s!"struct type_field_list {list};" ::
      ([s!"{list}.fields_quantity = {fields.length};",
        s!"{list}.field_offsets = malloc(sizeof(uint8_t*)*{list}.fields_quantity);",
        s!"{list}.field_widths = malloc(sizeof(uint8_t*)*{list}.fields_quantity);"] ++
      fields.zipIdx.flatMap (fieldLines list)) := rfl

section Lines

variable (list : String) (i : Nat) (x : PacketField × Nat)

theorem assigning_quantity : assigning s!"{list}.fields_quantity" (fieldLines list x) = [] := by
  simp [assigning, fieldLines, offsetLine, widthLine, List.prefix_append_right_inj]

theorem assigning_place :
    assigning s!"{list}.field_offsets[{i}]" (fieldLines list x) =
        (if i = x.2 then [offsetLine list i x.1] else []) ∧
      assigning s!"{list}.field_widths[{i}]" (fieldLines list x) =
        if i = x.2 then [widthLine list i x.1] else [] := by
  by_cases h : i = x.2
  · subst i
    simp [assigning, fieldLines, offsetLine, widthLine, List.prefix_append_right_inj]
  · simp [assigning, fieldLines, offsetLine, widthLine, List.prefix_append_right_inj,
      index_prefix_iff, h]

theorem assigning_zipIdx (target : String) (heads : List String) (fields : List PacketField) :
    assigning target (heads ++ fields.zipIdx.flatMap (fieldLines list)) =
      assigning target heads ++
        fields.zipIdx.flatMap fun x => assigning target (fieldLines list x) := by
  rw [assigning, List.filter_append, List.filter_flatMap]
  rfl

end Lines

theorem fills_listLines (list : String) (fields : List PacketField) :
    ∃ lines, listLines list fields = s!"struct type_field_list {list};" :: lines ∧
      Fills list fields lines := by
  refine ⟨_, listLines_eq list fields, ?_, fun i => ?_, fun i => ?_⟩
  · simp only [assigning_zipIdx, assigning_quantity]
    simp [assigning, List.prefix_append_right_inj]
  · simp only [assigning_zipIdx, (assigning_place list i _).1, flatMap_zipIdx]
    simp [assigning, List.prefix_append_right_inj]
  · simp only [assigning_zipIdx, (assigning_place list i _).2, flatMap_zipIdx]
    simp [assigning, List.prefix_append_right_inj]

/-! ### A digest lowered twice -/

/-- The statement hands over a list that has been filled with the fields. -/
def HandsOver (d : Digest) (c : Config) (r f : Fragment) : Prop :=
  ∃ list lines, Fills list d.fields lines ∧
    d.Surrounds c (Text.unlines (s!"struct type_field_list {list};" :: lines)) r f ∧
    f.text = s!"generate_digest(bg,\"{d.name}\",{d.receiver},&{list});"

/-- The expression sends a digest that has been created and given the fields. -/
def AddsUp (d : Digest) (c : Config) (r f : Fragment) : Prop :=
  ∃ digest : String, d.Surrounds c (Text.unlines
      (s!"ctrl_plane_digest {digest} = create_digest(bg, \"{d.name}\");" ::
        d.fields.map fun f : PacketField =>
          s!"add_digest_field({digest}, field_desc(pd, {f.fieldInstance}).byte_addr, {f.width});"))
      r f ∧
    f.text = s!"send_digest(bg, {digest}, {d.receiver})"

/-- A call of `digest` with a type and two arguments, lowered as a statement and as an expression
from one session, does with the receiver what that does by itself. If that fails, both fail with its
error. Otherwise both send the fields among the components, in their order, report every other
component, and end with the wait. -/
theorem forms_send_alike (s : Session) {p : Program} (hv : p.validate = .ok ()) (id : ExprId)
    {e method : Expr} {call : Call} {path : Path} {ty : Ty} {more : List Ty}
    {receiver argument : ExprId} (he : p.expr id = .ok e) (hcall : e.node = .call call)
    (hmethod : p.expr call.method = .ok method) (hpath : method.node = .path path)
    (hname : path.name = "digest") (htys : call.typeArgs = ty :: more)
    (hargs : call.args = [receiver, argument]) (block : Option BlockId) (mode : Mode) :
    ∃ components fields, Sends p argument components fields ∧
    match s.lowerExpression p receiver block .value with
    | (.error err, _) => (s.lowerStatement p (.call id) block).1 = .error err ∧
        (s.lowerExpression p id block mode).1 = .error err
    | (.ok r, s') => ∃ f t g u,
        s.lowerStatement p (.call id) block = (.ok f, t) ∧
        s.lowerExpression p id block mode = (.ok g, u) ∧
        t.diagnostics = s'.diagnostics ++ strays components ∧
        u.diagnostics = s'.diagnostics ++ strays components ∧
        let d : Digest := ⟨(p.typeName? ty).getD ty.text, r.text, fields⟩
        d.HandsOver s.config r f ∧ d.AddsUp s.config r g := by
  have wf := Program.WellFormed.of_validate hv
  have hpart : e.node.Mentions argument := hcall ▸ .arg (by simp [hargs])
  obtain ⟨components, fields, hsends⟩ := exists_sends wf (wf.exists_part he hpart)
  refine ⟨components, fields, hsends, ?_⟩
  have hstatement : statement expr (.call id) (s.env p block) =
      delivered expr e.id call "digest_fields"
        (fun list d => Text.unlines (listLines list d.fields))
        (fun list d => s!"generate_digest(bg,\"{d.name}\",{d.receiver},&{list});")
        (s.env p block) := by
    rw [statement, runCall, bind_of_pure (look_of_ok he), hcall]
    dsimp only
    rw [bind_of_pure (look_of_ok hmethod),
      if_pos (by rw [Expr.path?, hpath]; exact congrArg some hname)]
    rfl
  have hexpression : expr id mode (s.env p block) =
      delivered expr e.id call "digest" (fun digest d => Text.unlines (additionLines digest d))
        (fun digest d => s!"send_digest(bg, {digest}, {d.receiver})") (s.env p block) := by
    rw [expr_eq_nodeText wf he, nodeText, hcall]
    dsimp only
    rw [callText, bind_of_pure (look_of_ok hmethod), hpath]
    dsimp only
    rw [callFunction, if_pos hname]
    rfl
  have hleft := run_delivered htys hargs hsends s block .statements "lowering statement" _ _ _ _
    hstatement
  have hright := run_delivered htys hargs hsends s block .expression "lowering expression" _ _ _ _
    hexpression
  rcases hr : s.lowerExpression p receiver block .value with ⟨err | r, s'⟩
  · rw [hr] at hleft hright
    exact ⟨hleft, hright⟩
  · rw [hr] at hleft hright
    obtain ⟨list, f, t, hf, ht, htext, hsurrounds⟩ := hleft
    obtain ⟨digest, g, u, hg, hu, hexpr, haround⟩ := hright
    obtain ⟨lines, hlines, hfills⟩ := fills_listLines list fields
    exact ⟨f, t, g, u, hf, hg, ht, hu, ⟨list, lines, hfills, hlines ▸ hsurrounds, htext⟩,
      digest, haround, hexpr⟩

/-- A digest of a field, of a constant that is left out, and of the field again. -/
def mixedDigest : Program where
  exprs := #[.number 0 8 7, .free 1 .void "hdr",
    ⟨⟨2⟩, .bits 8 false, .member ⟨⟨1⟩, "f", none, some ⟨⟨0⟩, 0⟩⟩⟩, .list 3 [⟨2⟩, ⟨0⟩, ⟨2⟩],
    .free 4 .void "digest", ⟨⟨5⟩, .void, .call ⟨⟨4⟩, [.var "learn"], [⟨0⟩, ⟨3⟩]⟩⟩]
  typeDecls := #[⟨"h_t", .header [⟨"f", .bits 8 false⟩]⟩]
  headers := #[⟨"h", ⟨0⟩, false⟩]

/-- Either way the field is sent twice, and the constant is reported. -/
theorem mixedDigest_sends_alike : mixedDigest.validate = .ok () ∧ ∃ r s' f t g u fields,
    (Session.start .standard).lowerExpression mixedDigest ⟨0⟩ none .value = (.ok r, s') ∧
    (Session.start .standard).lowerStatement mixedDigest (.call ⟨5⟩) none = (.ok f, t) ∧
    (Session.start .standard).lowerExpression mixedDigest ⟨5⟩ none .value = (.ok g, u) ∧
    t.diagnostics = [.error .unsupportedConstruct "generating digest"
      "Digest field of kind Constant is not supported"] ∧ u.diagnostics = t.diagnostics ∧
    fields.map PacketField.fieldInstance = ["field_instance_h_f", "field_instance_h_f"] ∧
    HandsOver ⟨"learn", "(uint8_t)7", fields⟩ .standard r f ∧
    AddsUp ⟨"learn", "(uint8_t)7", fields⟩ .standard r g := by
  refine ⟨rfl, ?_⟩
  obtain ⟨components, fields, ⟨⟨ids, hids, hcomponents⟩, hfields⟩, h⟩ := forms_send_alike
    (.start .standard) (p := mixedDigest) rfl ⟨5⟩ rfl rfl rfl rfl rfl rfl rfl none .value
  obtain rfl : ids = [⟨2⟩, ⟨0⟩, ⟨2⟩] := by cases hids.items_eq; rfl
  cases hcomponents
  cases hfields
  obtain ⟨f, t, g, u, hf, hg, ht, hu, hover, hup⟩ := h
  exact ⟨_, _, f, t, g, u, _, rfl, hf, hg, ht, hu.trans ht.symm, rfl, hover, hup⟩

end PacketC.Lower.Digest
