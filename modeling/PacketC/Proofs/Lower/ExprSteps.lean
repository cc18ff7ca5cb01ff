import PacketC.Proofs.Lower.FieldSpan
import PacketC.Proofs.Lower.InStep

/-! The parts of an expression other than calls run in step: fields and paths, operators, lists of
fields and transitions. What each of them enters is a part of the expression, and the program is
asked for nothing that a well-formed program does not have. -/

namespace PacketC.Lower

variable {env env' : Env} {L : Licence} {r₁ r₂ : Recur} (hL : L.Suits env env') {p : Program}
  {ref : FieldRef} {items : List ExprId} {refs : List FieldRef} {run : FieldSpan}

/-! ### Fields and paths -/

theorem packetField_of_ok {i : HeaderInstance} {t : TypeDecl} {f : Field}
    (hi : p.headers[ref.header.index]? = some i)
    (ht : p.typeDecls[i.headerType.index]? = some t)
    (hf : t.fields[ref.field.toNat]? = some f) : Program.packetField ref p =
      .ok ⟨i.name, if i.isMetadata then Target.allMetadata else Target.headerInstance i.name,
        t.name, f.name, f.size, f.isVarWidth, t.bitWidth⟩ := by
  have hfield : p.field ref = .ok f := Program.field_eq_ok_iff.2 ⟨i, t, hi, ht, hf⟩
  simp only [Program.packetField, Program.header, Program.typeDecl,
    Program.lookup_eq_ok_iff.2 hi, Program.lookup_eq_ok_iff.2 ht, hfield, bind, Except.bind]
  rfl

theorem exists_packetField (h : p.Resolves ref) : ∃ l, Program.packetField ref p = .ok l := by
  obtain ⟨i, t, f, hi, ht, hf⟩ := h
  exact ⟨_, packetField_of_ok hi ht hf⟩

/-- What is said of a field: its names are those of its header, of the type and of itself. -/
theorem exists_of_packetField {l : PacketField} (h : p.packetField ref = .ok l) :
    ∃ i t f, p.header ref.header = .ok i ∧
      p.typeDecl i.headerType = .ok t ∧ f ∈ t.fields ∧
      l = ⟨i.name, if i.isMetadata then Target.allMetadata else Target.headerInstance i.name,
        t.name, f.name, f.size, f.isVarWidth, t.bitWidth⟩ := by
  obtain ⟨i, hi, h⟩ := Program.bind_eq_ok_iff.1 h
  obtain ⟨t, ht, h⟩ := Program.bind_eq_ok_iff.1 h
  obtain ⟨f, hf, h⟩ := Program.bind_eq_ok_iff.1 h
  cases h
  obtain ⟨i', t', hi', ht', hget⟩ := Program.field_eq_ok_iff.1 hf
  cases (Program.lookup_eq_ok_iff.1 hi).symm.trans hi'
  cases (Program.lookup_eq_ok_iff.1 ht).symm.trans ht'
  exact ⟨i, t, f, hi, ht, List.mem_of_getElem? hget, rfl⟩

theorem hint_of_packetField {l : PacketField} (h : Program.packetField ref p = .ok l) :
    Hint p (l.header ++ "_" ++ l.field) := by
  obtain ⟨i, t, f, hi, ht, hf, rfl⟩ := exists_of_packetField h
  exact .field (Program.mem_of_lookup hi) ht hf

theorem ended_packetBuffer (l : PacketField) (buffer : String) (bytes : Nat) :
    Text.Ended (packetBuffer l buffer bytes) := .append _ (.append _ rfl)

theorem isDeclaring_packetBuffer (l : PacketField) (buffer : String) (bytes : Nat) :
    isDeclaring (packetBuffer l buffer bytes) = true := by simp +decide [packetBuffer]

include hL

/-- A field of a well-formed program is found in both programs, at the same place. -/
theorem InStep.packetField {α : Type} (hres : L.Strict env env' → env.program.Resolves ref)
    {g g' : PacketField → LowerM α}
    (k : ∀ l, env.program.packetField ref = .ok l → InStep env env' L r₁ r₂ (g l) (g' l)) :
    InStep env env' L r₁ r₂ (Lower.look (Program.packetField ref) >>= g)
      (Lower.look (Program.packetField ref) >>= g') :=
  .look hL (fun wf => exists_packetField (hres wf)) (·.packetField) k

theorem fieldText_inStep (hres : L.Strict env env' → env.program.Resolves ref) (mode : Mode) :
    Steps env env' L r₁ r₂ fun _ => fieldText ref mode := by
  refine .packetField hL hres fun l hl => ?_
  split
  · exact .pure _
  · split
    · refine .bind (.freshName (hint_of_packetField hl)) fun _ _ => ?_
      exact .bind (.hoist (ended_packetBuffer ..) (.inr (isDeclaring_packetBuffer ..))) fun _ _ =>
        .pure _
    · exact .pure _

theorem pathText_inStep (path : Path) (mode : Mode) :
    Steps env env' L r₁ r₂ fun _ => pathText path mode := by
  unfold pathText
  split
  · exact .pure _
  · refine .isLocal hL _ fun b => ?_
    split
    · exact .pure _
    · split <;> exact .pure _

theorem addressedPath_inStep (path : Path) :
    Steps env env' L r₁ r₂ fun _ => addressedPath path := by
  unfold addressedPath
  split
  · exact .pure _
  · refine .isLocal hL _ fun b => ?_
    split <;> exact .pure _

theorem headerSlot_inStep {e : Expr} (hheader : L.Strict env env' → ∀ h, e.headerRef? = some h →
      ∃ i, env.program.header h = .ok i) (hid : L.enters e.id) (mode : Mode) :
    Steps env env' L r₁ r₂ (headerSlot · e mode) := by
  unfold Steps headerSlot
  split
  · rename_i h hh
    exact .header hL (fun wf => hheader wf h hh) fun _ => .pure _
  · exact .enter hid _

/-! ### Operators -/

omit hL

theorem typeMask_inStep (ty : Ty) : Steps env env' L r₁ r₂ fun _ => typeMask ty := by
  unfold typeMask
  split
  · exact .pure _
  · exact .bind (.report ..) fun _ _ => .pure _

theorem unsupported_inStep (category : Category) (message : String) :
    Steps env env' L r₁ r₂ fun _ => unsupported category message :=
  .bind (.report ..) fun _ _ => .pure _

theorem unaryText_inStep (ty : Ty) (op : UnaryOp) (inner : String) :
    Steps env env' L r₁ r₂ fun _ => unaryText ty op inner := by
  unfold unaryText
  split
  · split
    · exact .bind (typeMask_inStep _) fun _ _ => .pure _
    · exact .pure _
  · exact .bind (typeMask_inStep _) fun _ _ => .pure _
  · exact .pure _

theorem unary_inStep (e : Expr) (op : UnaryOp) {operand : ExprId} (h : L.enters operand)
    (mode : Mode) : Steps env env' L r₁ r₂ (unary · e op operand mode) := by
  unfold Steps unary
  split
  · exact unsupported_inStep _ _
  · exact .bind (.enter h _) fun _ _ => unaryText_inStep _ _ _

theorem binaryText_inStep {ty : Ty} (hty : SameText env env' ty) (op : BinaryOp) (l r : String) :
    Steps env env' L r₁ r₂ fun _ => binaryText ty op l r := by
  unfold binaryText
  split
  · exact .pure _
  · split
    · exact .bind (typeMask_inStep _) fun _ _ => .pure _
    · exact .bind (typeMask_inStep _) fun _ _ => .pure _
    · exact .pure _
    · exact .pure _
    · exact .bind (typeMask_inStep _) fun _ _ => .pure _
    · split
      · exact .bind (.typeText hty) fun _ _ => .pure _
      · exact unsupported_inStep _ _
    · exact unsupported_inStep _ _

theorem slice_inStep (e : Expr) {base : ExprId} (h : L.enters base) (lo : UInt32) (mode : Mode) :
    Steps env env' L r₁ r₂ (slice · e base lo mode) :=
  .bind (.enter h _) fun _ _ => .bind (typeMask_inStep _) fun _ _ => .pure _

theorem castText_inStep (src : Ty) {dest : Ty} (hdest : SameText env env' dest) (inner : String) :
    Steps env env' L r₁ r₂ fun _ => castText src dest inner := by
  unfold castText
  split
  · exact .pure _
  · exact .pure _
  · split
    · exact .bind (typeMask_inStep _) fun _ _ => .pure _
    · exact .pure _
  · exact .bind (.typeText hdest) fun _ _ => .pure _
  · exact .bind (typeMask_inStep _) fun _ _ => .pure _
  · split
    · exact .bind (.typeText hdest) fun _ _ => .pure _
    · exact unsupported_inStep _ _
  · exact unsupported_inStep _ _

include hL

theorem binary_inStep {e : Expr} (hty : SameText env env' e.ty) (op : BinaryOp)
    {left right : ExprId} (hl : L.Allows env env' left) (hr : L.Allows env env' right)
    (mode : Mode) : Steps env env' L r₁ r₂ (binary · e op left right mode) := by
  refine .expr hL hl.there fun l _ => .expr hL hr.there fun r _ => ?_
  split
  · refine .bind (.enter hl.enters _) fun _ _ => .bind (.enter hr.enters _) fun _ _ => ?_
    split
    · exact .pure _
    · exact binaryText_inStep hty _ _ _
  · dsimp only
    split
    · exact unsupported_inStep _ _
    · exact .bind (.enter hl.enters _) fun _ _ => .bind (.enter hr.enters _) fun _ _ =>
        binaryText_inStep hty _ _ _

theorem concat_inStep {left right : ExprId} (hl : L.enters left) (hr : L.Allows env env' right)
    (mode : Mode) : Steps env env' L r₁ r₂ (concat · left right mode) :=
  .expr hL hr.there fun _ _ => .bind (.enter hl _) fun _ _ => .bind (.enter hr.enters _) fun _ _ =>
    .pure _

theorem cast_inStep {dest : Ty} (hdest : SameText env env' dest) {operand : ExprId}
    (h : L.Allows env env' operand) (mode : Mode) :
    Steps env env' L r₁ r₂ (cast · dest operand mode) :=
  .expr hL h.there fun _ _ => .bind (.enter h.enters _) fun _ _ => castText_inStep _ hdest _

/-! ### Lists of fields -/

omit hL in
/-- The fields that a list is copied from are among its items. -/
theorem exists_item_of_listFields (h : Returns env (listFields items) refs) :
    ∀ ref ∈ refs, ∃ item ∈ items, ∃ e,
      env.At item e ∧ e.fieldRef? = some ref := by
  induction items generalizing refs with
  | nil => rw [← h.of_pure]; exact nofun
  | cons item rest ih =>
    have hrest : Returns env (listFields rest) refs → ∀ ref ∈ refs, ∃ i ∈ item :: rest, ∃ e,
        env.At i e ∧ e.fieldRef? = some ref := by
      intro h ref href
      obtain ⟨i, hi, hfound⟩ := ih h ref href
      exact ⟨i, .tail item hi, hfound⟩
    obtain ⟨e, he, h⟩ := Returns.of_bind h
    have he := he.of_look
    split at h
    · rename_i first hfirst
      obtain ⟨others, hothers, h⟩ := Returns.of_bind h
      rw [← h.of_pure]
      intro ref href
      rcases List.mem_cons.1 href with rfl | href
      · exact ⟨item, .head rest, e, he, hfirst⟩
      · obtain ⟨i, hi, hfound⟩ := ih hothers ref href
        exact ⟨i, .tail item hi, hfound⟩
    · split at h
      · obtain ⟨_, _, h⟩ := Returns.of_bind h
        exact hrest h
      · exact hrest h

theorem listFields_inStep
    (hitems : L.Strict env env' → ∀ i ∈ items, ∃ e, env.At i e) :
    Steps env env' L r₁ r₂ fun _ => listFields items := by
  induction items with
  | nil => exact .pure _
  | cons item rest ih =>
    have ih := ih fun wf i hi => hitems wf i (.tail item hi)
    refine .expr hL (fun wf => hitems wf item (.head rest)) fun e _ => ?_
    split
    · exact .bind ih fun _ _ => .pure _
    · split
      · exact .bind (.warn ..) fun _ _ => ih
      · exact ih

omit hL in
/-- A run of neighbours holds only fields that were to be copied. -/
theorem mem_of_mem_partition (h : run ∈ FieldSpan.partition refs) :
    ∀ f ∈ run.fields, ⟨run.header, f⟩ ∈ refs := fun _ hf =>
  (FieldSpan.isMaximal_partition refs).mem_of_mem_refs h (List.mem_map_of_mem hf)

theorem runFields_inStep (hhead : L.Strict env env' → ∃ i, env.program.header run.header = .ok i)
    (hres : L.Strict env env' → ∀ f ∈ run.fields, env.program.Resolves ⟨run.header, f⟩) :
    Steps env env' L r₁ r₂ fun _ => runFields run := by
  refine .header hL hhead fun header => .mapM fun index hi => ?_
  exact .look hL (fun wf => (hres wf index hi).exists_field) (·.field) fun _ _ => .pure _

theorem copyRuns_inStep (buffer : String) {runs : List FieldSpan}
    (hhead : L.Strict env env' → ∀ run ∈ runs, ∃ i, env.program.header run.header = .ok i)
    (hres : L.Strict env env' → ∀ run ∈ runs, ∀ f ∈ run.fields,
      env.program.Resolves ⟨run.header, f⟩) (offset : BitCount) :
    Steps env env' L r₁ r₂ fun _ => copyRuns buffer offset runs := by
  induction runs generalizing offset with
  | nil => exact .pure _
  | cons run rest ih =>
    have ih := ih (fun wf r hr => hhead wf r (.tail run hr))
      (fun wf r hr => hres wf r (.tail run hr))
    unfold copyRuns
    refine .bind (runFields_inStep hL (fun wf => hhead wf run (.head rest))
      (fun wf => hres wf run (.head rest))) fun fields _ => ?_
    split
    · exact ih offset
    · exact .bind (ih _) fun _ _ => .pure _

omit hL in
theorem fields_ne_nil_of_mem_partition (h : run ∈ FieldSpan.partition refs) : run.fields ≠ [] :=
  ((FieldSpan.isMaximal_partition refs).isRun run h).nonempty

/-- The fields of a list that were found can be copied. -/
theorem copyRuns_partition_inStep (buffer : String) (hrefs : Returns env (listFields items) refs) :
    Steps env env' L r₁ r₂ fun _ => copyRuns buffer .empty (FieldSpan.partition refs) := by
  have hres : L.Strict env env' → ∀ ref ∈ refs, env.program.Resolves ref := by
    intro wf ref href
    obtain ⟨item, _, e, he, hfield⟩ := exists_item_of_listFields hrefs ref href
    exact wf.resolves he hfield
  refine copyRuns_inStep hL buffer ?_ ?_ .empty
  · intro wf run hrun
    obtain ⟨f, hf⟩ := List.exists_mem_of_ne_nil _ (fields_ne_nil_of_mem_partition hrun)
    exact (hres wf _ (mem_of_mem_partition hrun f hf)).exists_header
  · intro wf run hrun f hf
    exact hres wf _ (mem_of_mem_partition hrun f hf)

theorem bufferCode_inStep
    (hitems : L.Strict env env' → ∀ i ∈ items, ∃ e, env.At i e) (buffer : String) :
    Steps env env' L r₁ r₂ fun _ => bufferCode items buffer :=
  .bind (listFields_inStep hL hitems) fun _ hrefs =>
    .bind (copyRuns_partition_inStep hL buffer hrefs) fun _ _ => .pure _

omit hL in
theorem ended_of_copyRuns {buffer : String} {offset : BitCount} {runs : List FieldSpan}
    {result : List String × BitCount} (h : Returns env (copyRuns buffer offset runs) result) :
    ∀ copy ∈ result.1, Text.Ended copy := by
  induction runs generalizing offset result with
  | nil =>
    rw [← h.of_pure]
    exact nofun
  | cons run rest ih =>
    obtain ⟨fields, _, h⟩ := h.of_bind
    split at h
    · exact ih h
    · obtain ⟨others, hothers, h⟩ := h.of_bind
      rw [← h.of_pure]
      exact List.forall_mem_cons.2 ⟨.append _ rfl, ih hothers⟩

omit hL in
theorem InStep.hoistBuffer {buffer code : String}
    (h : Returns env (bufferCode items buffer) code) :
    Steps env env' L r₁ r₂ fun _ => Lower.hoist code := by
  obtain ⟨refs, _, h⟩ := h.of_bind
  obtain ⟨copies, hcopies, h⟩ := h.of_bind
  rw [← h.of_pure]
  refine .hoist (.unlines (List.cons_ne_nil _ _) ?_) (.inr ?_)
  · exact List.forall_mem_cons.2 ⟨.append _ rfl,
      List.forall_mem_cons.2 ⟨.append _ rfl, ended_of_copyRuns hcopies⟩⟩
  · simp +decide [Text.unlines, String.intercalate_cons_cons]

theorem bufferText_inStep {id : ExprId} (hid : L.marks id)
    (hitems : L.Strict env env' → ∀ i ∈ items, ∃ e, env.At i e) :
    Steps env env' L r₁ r₂ fun _ => bufferText id items := by
  refine .bind (.nameOf .buffer id) fun name _ => .bind (.firstTime hid) fun first _ => ?_
  split
  · exact .bind (bufferCode_inStep hL hitems name) fun _ hcode =>
      .bind (.hoistBuffer hcode) fun _ _ => .pure _
  · exact .pure _

/-! ### Transitions -/

omit hL in
theorem isDeclaring_of_typeText {width : UInt32} {signed : Bool} {text : String}
    (h : Returns env (typeText (.bits width signed)) text) : isDeclaring text = true := by
  obtain ⟨_, henv, h⟩ := h.of_bind
  obtain ⟨_, _, h⟩ := h.of_bind
  rw [← h.of_pure, Ty.render]
  unfold Ty.bitsText
  cases signed <;> dsimp only [Noted.plain] <;> split <;> simp +decide

theorem declareKey_inStep {key : ExprId} (h : L.Allows env env' key) (name : String) :
    Steps env env' L r₁ r₂ (declareKey · key name) := by
  refine .expr hL h.there fun k hk => ?_
  split
  · rename_i hty
    split
    · refine .bind (.typeText (hL.sameText fun wf => wf.ty hk)) fun type htype =>
        .bind (.enter h.enters _) fun value _ => .hoist (.append _ rfl) (.inr ?_)
      show isDeclaring (type ++ " " ++ name ++ " = " ++ value ++ ";") = true
      simp [isDeclaring_of_typeText (hty ▸ htype)]
    · split
      · split
        · rename_i ref href
          exact .packetField hL (fun wf => wf.resolves hk href) fun _ _ =>
            .hoist (ended_packetBuffer ..) (.inr (isDeclaring_packetBuffer ..))
        · exact .report ..
      · exact .report ..
  · exact .report ..

theorem keyNames_inStep (declare : Bool) {keys : List ExprId}
    (h : ∀ k ∈ keys, L.Allows env env' k) : Steps env env' L r₁ r₂ (keyNames · declare keys) := by
  induction keys with
  | nil => exact .pure _
  | cons key rest ih =>
    have ih := ih fun k hk => h k (.tail key hk)
    refine .bind (.nameOf .value key) fun name _ => ?_
    split
    · refine .bind ?_ fun _ _ => .bind ih fun _ _ => .pure _
      exact declareKey_inStep hL (h key (.head rest)) name
    · exact .bind ih fun _ _ => .pure _

omit hL in
theorem wideCondition_inStep (keyTy : Ty) (width : Nat) (keyName : String) (c : Expr) :
    Steps env env' L r₁ r₂ fun _ => wideCondition keyTy width keyName c := by
  unfold wideCondition
  split
  · exact .bind (.nameOf .value _) fun _ _ =>
      .bind (.hoist (.append _ rfl) (.inr (by simp +decide))) fun _ _ => .pure _
  · exact .bind (.report ..) fun _ _ => .pure _

omit hL in
theorem narrowCondition_inStep (keyTy : Ty) (keyName : String) {component : ExprId} {c : Expr}
    (h : L.enters component) (hparts : ∀ i, c.node.Mentions i → L.enters i) :
    Steps env env' L r₁ r₂ (narrowCondition · keyTy keyName component c) := by
  unfold Steps narrowCondition
  split
  · rename_i low high hnode
    rw [hnode] at hparts
    exact .bind (.enter (hparts _ (.low ..)) _) fun _ _ =>
      .bind (.enter (hparts _ (.high ..)) _) fun _ _ => .pure _
  · rename_i value mask hnode
    rw [hnode] at hparts
    exact .bind (.enter (hparts _ (.maskValue ..)) _) fun _ _ =>
      .bind (.enter (hparts _ (.mask ..)) _) fun _ _ => .pure _
  · split
    · exact .bind (.warn ..) fun _ _ => .bind (.enter h _) fun _ _ => .pure _
    · exact .bind (.enter h _) fun _ _ => .pure _

theorem keyCondition_inStep {key component : ExprId}
    (hkey : L.Strict env env' → ∃ k, env.At key k)
    (hcomponent : L.Strict env env' → ∃ c, env.At component c)
    (h : ∀ i, env.program.Reaches component i → L.enters i) (keyName : String) :
    Steps env env' L r₁ r₂ (keyCondition · key keyName component) := by
  refine .expr hL hkey fun k _ => .expr hL hcomponent fun c hc => ?_
  dsimp only
  split
  · exact .pure _
  · split
    · exact .bind (wideCondition_inStep ..) fun _ _ => .pure _
    · refine .bind (narrowCondition_inStep _ _ (h _ (.refl _)) fun i hi => ?_) fun _ _ => .pure _
      exact h i (.part ⟨c, hc, hi⟩ (.refl i))

omit hL in
theorem keyConditions_eq_mapM (recur : Recur) (pairs : List ((ExprId × String) × ExprId)) :
    keyConditions recur pairs = do
      let conditions ← pairs.mapM fun q => keyCondition recur q.1.1 q.1.2 q.2
      return conditions.flatMap Option.toList := by
  induction pairs with
  | nil => simp only [keyConditions, List.mapM_nil, pure_bind, List.flatMap_nil]
  | cons q rest ih =>
    simp only [keyConditions, List.mapM_cons, ih, bind_assoc, pure_bind, List.flatMap_cons]

omit hL in
/-- The parts of a keyset are the keyset itself or the items of the list that it is. -/
theorem reaches_of_keysetParts {keyset : ExprId} {parts : List ExprId}
    (h : keysetParts p keyset = .ok parts) : ∀ i ∈ parts, i = keyset ∨ p.Part keyset i := by
  obtain ⟨e, he, h⟩ := Program.bind_eq_ok_iff.1 h
  intro i hi
  split at h
  · rename_i items hnode
    cases h
    exact .inr ⟨e, he, hnode ▸ .item hi⟩
  · cases h
    exact .inl (List.mem_singleton.1 hi)

theorem partCondition_inStep {keys : List (ExprId × String)}
    {keyset : ExprId} {parts : List ExprId} (hparts : keysetParts env.program keyset = .ok parts)
    (hkeys : L.Strict env env' → ∀ k ∈ keys, ∃ e, env.At k.1 e)
    (hkeyset : L.Strict env env' → ∃ e, env.At keyset e)
    (h : ∀ i, env.program.Reaches keyset i → L.enters i) :
    ∀ q ∈ keys.zip parts, Steps env env' L r₁ r₂ (keyCondition · q.1.1 q.1.2 q.2) := by
  intro q hq
  have hmem := List.of_mem_zip hq
  refine keyCondition_inStep hL (fun wf => hkeys wf q.1 hmem.1) ?_ ?_ q.1.2
  · intro wf
    rcases reaches_of_keysetParts hparts q.2 hmem.2 with heq | ⟨e, he, hm⟩
    · rw [heq]; exact hkeyset wf
    · exact wf.exists_part he hm
  · intro i hi
    rcases reaches_of_keysetParts hparts q.2 hmem.2 with heq | hpart
    · exact h i (heq ▸ hi)
    · exact h i (.part hpart hi)

theorem branch_inStep {keys : List (ExprId × String)} {arm : SelectArm}
    (hkeys : L.Strict env env' → ∀ k ∈ keys, ∃ e, env.At k.1 e)
    (hkeyset : L.Strict env env' → ∃ e, env.At arm.keyset e)
    (h : ∀ i, env.program.Reaches arm.keyset i → L.enters i) :
    Steps env env' L r₁ r₂ (branch · keys arm) := by
  refine .look hL (fun wf => ?_) (·.keysetParts) fun parts hparts => ?_
  · obtain ⟨e, he⟩ := hkeyset wf
    simp only [keysetParts, he, bind, Except.bind]
    split <;> exact ⟨_, rfl⟩
  · rw [keyConditions_eq_mapM, keyConditions_eq_mapM]
    refine .bind (.bind (.mapM ?_) fun _ _ => .pure _) fun _ _ => .pure _
    exact partCondition_inStep hL hparts hkeys hkeyset h

theorem transition_inStep {id : ExprId} {keys : List ExprId} {arms : List SelectArm}
    (hid : L.marks id) (hk : ∀ k ∈ keys, L.Allows env env' k)
    (hkeysets : L.Strict env env' → ∀ a ∈ arms, ∃ e, env.At a.keyset e)
    (ha : ∀ a ∈ arms, ∀ i, env.program.Reaches a.keyset i → L.enters i) :
    Steps env env' L r₁ r₂ (transition · id keys arms) := by
  refine .bind (.firstTime hid) fun declare _ => .bind (keyNames_inStep hL declare hk) ?_
  refine fun names _ => .bind (.mapM fun arm harm => ?_) fun _ _ => .pure _
  exact branch_inStep hL (fun wf q hq => (hk q.1 (List.of_mem_zip hq).1).there wf)
    (fun wf => hkeysets wf arm harm) (ha arm harm)

end PacketC.Lower
