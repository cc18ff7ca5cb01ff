import PacketC.Proofs.External.Passing
import PacketC.Proofs.Wide.Laid

/-! Arguments that are written back. For arguments without calls in them, all that a call puts
behind the statement are the stores of the fields that the method may change: each such argument is
stored once, in the order of the arguments. In front of the statement the variable of such an
argument is declared, and then filled if the method reads it too. Where types go by identifiers,
nothing else fills it, and nothing comes between that would fill it before it is declared. -/

namespace PacketC

open Code Lower

/-! ### One piece of code behind another -/

namespace Emission

/-- Where the second piece comes first, it comes after the first one. -/
def Led (first second : String) (pieces : List String) : Prop :=
  second ∈ pieces → ∃ front rest, pieces = front ++ second :: rest ∧ second ∉ front ∧ first ∈ front

namespace Led

variable {first second : String} {pieces more : List String}

theorem of_not_mem (h : second ∉ pieces) : Led first second pieces := fun hmem => absurd hmem h

theorem append_right (h : Led first second pieces) (hmem : second ∈ pieces) (more : List String) :
    Led first second (pieces ++ more) := by
  obtain ⟨front, rest, rfl, hnew, hfirst⟩ := h hmem
  exact fun _ => ⟨front, rest ++ more, by simp, hnew, hfirst⟩

theorem append (h : Led first second pieces) (k : Led first second more) :
    Led first second (pieces ++ more) := by
  by_cases hmem : second ∈ pieces
  · exact h.append_right hmem more
  · intro hmore
    obtain ⟨front, rest, rfl, hnew, hfirst⟩ := k ((List.mem_append.1 hmore).resolve_left hmem)
    refine ⟨pieces ++ front, rest, by simp, ?_, List.mem_append_right _ hfirst⟩
    exact fun h => (List.mem_append.1 h).elim hmem hnew

theorem flatMap {α : Type} {f : α → List String} {l : List α}
    (h : ∀ a ∈ l, Led first second (f a)) : Led first second (l.flatMap f) := by
  induction l with
  | nil => exact .of_not_mem List.not_mem_nil
  | cons a l ih =>
    rw [List.flatMap_cons]
    exact (h a (.head l)).append (ih fun b hb => h b (.tail a hb))

theorem sublist (h : Led first second pieces) (hmem : second ∈ pieces) :
    [first, second].Sublist pieces := by
  obtain ⟨front, rest, rfl, -, hfirst⟩ := h hmem
  exact (List.singleton_sublist.2 hfirst).append ((List.nil_sublist rest).cons_cons second)

/-- What is put in front after another piece stands there after it. -/
theorem sublist_add {pre : List String} (h : Led first second pre) (hmem : second ∈ pre)
    (post : List String) {e : Emission} (hled : Led first second e.current.pre) :
    [first, second].Sublist (e.add pre post).current.pre := by
  by_cases hnew : second ∈ e.current.pre
  · exact (hled.sublist hnew).trans (prefix_foldl_addOnce pre _).sublist
  obtain ⟨front, rest, rfl, hlater, hfirst⟩ := h hmem
  have hfront : second ∉ front.foldl addOnce e.current.pre := fun h =>
    (mem_foldl_addOnce.1 h).elim hnew hlater
  have hsecond : addOnce (front.foldl addOnce e.current.pre) second =
      front.foldl addOnce e.current.pre ++ [second] := by
    rw [addOnce, if_neg fun h => hfront (List.contains_iff_mem.1 h)]
  have hsub : [first, second].Sublist (front.foldl addOnce e.current.pre ++ [second]) :=
    (List.singleton_sublist.2 (mem_foldl_addOnce.2 (.inr hfirst))).append (.refl [second])
  rw [add, List.foldl_append, List.foldl_cons, hsecond]
  exact hsub.trans (prefix_foldl_addOnce rest _).sublist

end Led

end Emission

/-! ### Filling a variable -/

/-- Declares a variable that holds the field. -/
def PacketField.container (l : PacketField) (name : String) : String :=
  match (Container.ofWidth l.width).bits? with
  | some unit => s!"uint{unit}_t {name};"
  | none => s!"uint8_t {name}[{l.bytes}];"

/-- Reads the field into the variable. -/
def PacketField.filling (l : PacketField) (name : String) : String :=
  if l.width ≤ 32 then s!"{name} = {packetValue l};" else extractPacket l l.fieldId name

namespace Lower

variable {l l' : PacketField} {name name' : String}

theorem Marshals.pre_eq {direction : Direction} {a : Passing} (h : Marshals l direction name a) :
    a.pre = l.container name :: if direction = .inOut then [l.filling name] else [] := by
  unfold PacketField.container PacketField.filling
  cases h with
  | scalar h hbits => rw [hbits, if_pos h]
  | buffer h =>
    rcases bits?_cases l.width with ⟨hle, -⟩ | ⟨-, hbits⟩
    · omega
    · rw [hbits, if_neg (Nat.not_le.2 h)]

theorem isDeclaring_container (l : PacketField) (name : String) :
    isDeclaring (l.container name) = true := by
  unfold PacketField.container
  split <;> simp +decide

/-- The name of a variable for an argument. -/
structure IsValueName (name : String) : Prop extends IsWord name where
  starts : starts (· == 'v') name = true

theorem isValueName_of_lookup {names : NameSupply} (hs : names.Sound) {id : ExprId}
    (h : names.memo.lookup ("value", id.text) = some name) : IsValueName name where
  toIsWord := (identifier_of_derived isStem_value (hs.derived _ _ _ h)).toIsWord
  starts := starts_of_derived (hs.derived _ _ _ h)

theorem extractPacket_text (l : PacketField) (field buffer : String) :
    extractPacket l field buffer = "EXTRACT_BYTEBUF_PACKET" ++
      ("(pd, " ++ l.headerId ++ ", " ++ field ++ ", ") ++ buffer ++ ");" := by
  unfold extractPacket
  simp [← String.toList_inj]

theorem filling_starts (h : IsValueName name) (l : PacketField) :
    starts (['v', 'E'].contains ·) (l.filling name) = true := by
  unfold PacketField.filling
  split
  · have hname : starts (['v', 'E'].contains ·) name = true := by
      have := h.starts
      unfold Code.starts at *
      cases hc : name.toList.head? <;> simp_all
    exact starts_append (starts_append (starts_append hname))
  · rw [extractPacket_text]
    exact starts_append (starts_append (starts_append (by decide)))

/-- Code that starts otherwise fills no such variable. -/
theorem filling_ne {q : Char → Bool} (h : IsValueName name) (l : PacketField) {code : String}
    (hcode : starts q code = true) (hq : q 'v' = false ∧ q 'E' = false) :
    l.filling name ≠ code := by
  refine ne_of_starts (filling_starts h l) hcode fun c hc => ?_
  simp only [List.contains_eq_mem, List.mem_cons, List.not_mem_nil, or_false,
    decide_eq_true_eq] at hc
  rcases hc with rfl | rfl
  · exact hq.1
  · exact hq.2

/-- Different variables are filled by different code. -/
theorem eq_of_filling (h : IsValueName name) (h' : IsValueName name')
    (heq : l.filling name = l'.filling name') : name = name' := by
  have hv : ∀ {x : String}, IsValueName x → ∀ y, starts (· == 'v') (x ++ y) = true := fun h _ =>
    starts_append h.starts
  have hE : ∀ l x, starts (· == 'E') (extractPacket l l.fieldId x) = true := by
    intro l x
    rw [extractPacket_text]
    exact starts_append (starts_append (starts_append (by decide)))
  have hother : ∀ c : Char, (c == 'v') = true → (c == 'E') = false := by simp
  unfold PacketField.filling at heq
  split at heq <;> split at heq
  · have hset : ∀ x (l : PacketField), s!"{x} = {packetValue l};" =
        x ++ (" = " ++ packetValue l ++ ";") := fun x l => by simp [← String.toList_inj]
    rw [hset, hset] at heq
    exact (append_inj_of_all h.chars h'.chars (starts_append (starts_append (by decide)))
      (starts_append (starts_append (by decide))) heq).1
  · exact absurd heq (ne_of_starts (starts_append (starts_append (hv h _))) (hE _ _) hother)
  · exact absurd heq.symm
      (ne_of_starts (starts_append (starts_append (hv h' _))) (hE _ _) hother)
  · rw [extractPacket_text, extractPacket_text, String.append_left_inj] at heq
    exact append_inj_of_all_last h.chars h'.chars (ends_append (ends_append (by decide)))
      (ends_append (ends_append (by decide))) heq

/-- The variable of a payload is declared with its type, which a variable that is filled is not. -/
theorem filling_ne_load (h : IsValueName name) {type var : String} (value : String)
    (htype : TypeLike type) (hvar : IsWord var) : l.filling name ≠ s!"{type} {var} = {value};" := by
  have hword : ∀ {x : String}, IsWord x → x.toList.all isTypeChar = true := fun h =>
    (TypeLike.of_isWord h).chars
  have hload : s!"{type} {var} = {value};" =
      type ++ " " ++ var ++ " " ++ ("= " ++ value ++ ";") := by
    simp [← String.toList_inj]
  have hchars : (type ++ " " ++ var ++ " ").toList.all isTypeChar = true := by
    simp only [String.toList_append, List.all_append, htype.chars, hword hvar]
    decide
  have hrest : ∀ y, starts (· == '=') ("= " ++ y) = true := fun _ => starts_append (by decide)
  intro heq
  rw [hload] at heq
  unfold PacketField.filling at heq
  split at heq
  · have hset : s!"{name} = {packetValue l};" = name ++ " " ++ ("= " ++ packetValue l ++ ";") := by
      simp [← String.toList_inj]
    rw [hset] at heq
    have hname : (name ++ " ").toList.all isTypeChar = true := by
      rw [String.toList_append, List.all_append, hword h.toIsWord]
      decide
    obtain ⟨heq, -⟩ := append_inj_of_all hname hchars (starts_append (starts_append (by decide)))
      (starts_append (starts_append (by decide))) heq
    have hblank := h.chars
    rw [(String.append_left_inj _).1 heq] at hblank
    simp +decide at hblank
  · rw [extractPacket_text, String.append_assoc, String.append_assoc] at heq
    obtain ⟨-, heq⟩ := append_inj_of_all (p := isTypeChar) (by decide) hchars
      (starts_append (starts_append (starts_append (starts_append (starts_append (by decide))))))
      (starts_append (starts_append (by decide))) heq
    exact ne_of_starts (p := (· == '(')) (q := (· == '='))
      (starts_append (starts_append (starts_append (starts_append (starts_append (by decide))))))
      (starts_append (starts_append (by decide))) (by simp) heq

theorem filling_ne_extraction (h : IsValueName name) (var m : String) :
    l.filling name ≠ extraction var l' m := by
  unfold PacketField.filling extraction
  split
  · rw [extractPacket_text]
    refine ne_of_starts (p := (· == 'v')) (q := (· == 'E')) ?_ ?_ (by simp)
    · exact starts_append (starts_append (starts_append h.starts))
    · exact starts_append (starts_append (starts_append (by decide)))
  · -- the last argument is a word in one of them, and ends in a bracket in the other
    rw [extractPacket_text, extractPacket_text]
    intro heq
    replace heq := ((String.append_left_inj _).1 heq).trans String.append_empty.symm
    refine h.nonempty (append_inj_of_all_last (p := isWordChar) h.chars rfl ?_ ?_ heq)
    · exact ends_append (ends_append (by decide))
    · exact ends_append (ends_append (by decide))

variable {env : Env}

theorem filling_not_mem_payloadCode (h : IsValueName name) (var : String) (q : Field × Component) :
    l.filling name ∉ payloadCode env var q := by
  have htrace : ∀ label, l.filling name ∉
      if env.config.emitDebugTraces then [bytesTrace var q.1 label] else [] := by
    intro label
    split
    · refine fun hmem => filling_ne h l (q := (· == 'd')) ?_ (by decide) (List.mem_singleton.1 hmem)
      iterate 8 apply starts_append
      decide
    · exact List.not_mem_nil
  unfold payloadCode
  dsimp only
  split
  · exact htrace _
  · split
    · exact List.not_mem_nil
    · rw [List.mem_cons, not_or]
      exact ⟨filling_ne_extraction h var _, htrace _⟩

end Lower

/-- Types go by identifiers, and aliases can stand before a declared name as well. -/
structure TypeScope.Named (s : TypeScope) : Prop where
  types : s.program.TypesNamed
  aliases : ∀ name text, s.aliases.find? name = some text → TypeLike text

namespace Lower

variable {env : Env} {l : PacketField} {name : String} {t : ExternalTarget} {s u : State}

theorem typeLike_payloadType (h : env.toTypeScope.Named) (a : Expr) (receiverArgs : List Ty) :
    TypeLike (env.payloadType a receiverArgs) := by
  have htexts : TypeTexts env.toTypeScope TypeLike :=
    { TypeLike.typeTexts (s := { env.toTypeScope with aliases := .empty }) h.types rfl with
      aliases := h.aliases }
  unfold Env.payloadType
  split
  · exact htexts.render ..
  · cases hname : receiverArgs.head?.bind env.program.typeName? with
    | none => exact ⟨by decide, by decide⟩
    | some name =>
      obtain ⟨ty, -, hty⟩ := Option.bind_eq_some_iff.1 hname
      obtain ⟨d, hd, rfl⟩ := exists_of_typeName? hty
      exact .of_isWord (h.types.name d hd)

/-- The code that loads what the receiver takes: a variable holds it, and is copied. -/
def ExternalTarget.loads (t : ExternalTarget) (env : Env) (var : String)
    (q : (ExprId × Param) × Passing) : List String :=
  match env.program.expr q.1.1 with
  | .ok a => payloadPieces (env.payloadType a t.receiverArgs) var q.2.text (env.storage t.path)
      (memberCodes env var a)
  | .error _ => []

theorem filling_not_mem_loads (h : IsValueName name) (hnamed : env.toTypeScope.Named)
    {var : String} (hvar : IsWord var) (q : (ExprId × Param) × Passing) :
    l.filling name ∉ t.loads env var q := by
  have hmembers : ∀ a, l.filling name ∉ memberCodes env var a := by
    intro a hmem
    unfold memberCodes payloadCodes at hmem
    split at hmem
    · split at hmem
      · obtain ⟨q, -, hq⟩ := List.mem_flatMap.1 hmem
        exact filling_not_mem_payloadCode h var q hq
      · cases hmem
    · cases hmem
  unfold ExternalTarget.loads
  split
  · rename_i a _
    rw [payloadPieces, List.mem_cons, List.mem_append, List.mem_singleton]
    rintro (heq | hmem | heq)
    · exact filling_ne_load h _ (typeLike_payloadType hnamed a _) hvar heq
    · exact hmembers a hmem
    · refine filling_ne h l (q := (· == 'm')) ?_ (by decide) heq
      iterate 6 apply starts_append
      decide
  · exact List.not_mem_nil

theorem exists_of_loadReceiver (wf : env.program.WellFormed) {receiver : Expr}
    {args : List (ExprId × Param)} (hargs : ∀ q ∈ args, ∃ a, env.At q.1 a)
    (hcall : ∀ q ∈ args, ¬env.program.ReachesCall q.1) {loaded : Loaded}
    (h : loadReceiver expr receiver t t.convention (env.storage t.path) args env s =
      (.ok loaded, u)) :
    let pairs := args.take (ExternalTarget.taken receiver)
    ∃ passings : List Passing, List.Forall₂ (PassedAs env u.memory.names) pairs passings ∧
      u.emission = s.emission.add (passings.flatMap Passing.pre ++
        (pairs.zip passings).flatMap (t.loads env (s.memory.names.fresh "var").1))
        (passings.flatMap Passing.post) := by
  rw [loadReceiver_eq] at h
  unfold ExternalTarget.taken
  split at h
  · rename_i hty
    rw [if_pos hty]
    cases args with
    | nil =>
      cases h
      exact ⟨[], .nil, (Emission.add_nil _).symm⟩
    | cons q rest =>
      obtain ⟨a, ha⟩ := hargs q (.head rest)
      obtain ⟨type, s₁, htype, h⟩ := exists_of_bind h
      cases h
      obtain ⟨s₀, var, s₁, value, s₂, hused, hvar, hvalue, rfl⟩ := exists_of_payload wf ha htype
      obtain ⟨ds, hnotes⟩ := payloadType_notes a t.receiverArgs s
      cases hused.symm.trans hnotes
      have hfresh : var = (s.memory.names.fresh "var").1 ∧ s₁.emission = s.emission := by
        cases hvar
        exact ⟨rfl, rfl⟩
      obtain ⟨passing, rfl, hemission, hpassing⟩ :=
        exists_of_argument wf ha (hcall q (.head rest)) hvalue
      refine ⟨[passing], .cons hpassing .nil, ?_⟩
      dsimp only
      rw [hemission, hfresh.2, hfresh.1, Emission.add_add, List.append_nil]
      simp [ExternalTarget.loads, ha]
  · rename_i hty
    rw [if_neg hty]
    have hsame := (eq_of_loadPlain hty hargs h).2
    exact ⟨[], .nil, hsame.trans (Emission.add_nil _).symm⟩

/-! ### The call -/

variable {names : NameSupply} {pairs : List (ExprId × Param)}

/-- Only an argument for the same field that the method reads fills the variable. -/
theorem PassedAs.of_filling_mem (hs : names.Sound) {q q' : ExprId × Param} {a : Passing}
    (h : PassedAs env names q' a) (hl : env.program.writtenField? q = some l)
    (hname : names.memo.lookup ("value", q.1.text) = some name) (hmem : l.filling name ∈ a.pre) :
    q'.1 = q.1 ∧ q'.2.direction = .inOut ∧ a.pre = [l.container name, l.filling name] := by
  have hvalue := isValueName_of_lookup hs hname
  have hdecl : ∀ {code}, isDeclaring code = true → l.filling name ≠ code := fun hcode =>
    filling_ne hvalue l hcode (by decide)
  cases hl' : env.program.writtenField? q' with
  | none => exact absurd rfl (hdecl ((h.other hl').2.1 _ hmem))
  | some l' =>
    obtain ⟨name', hname', hmarshals⟩ := h.field l' hl'
    rw [hmarshals.pre_eq] at hmem ⊢
    rcases List.mem_cons.1 hmem with heq | hmem
    · exact absurd heq (hdecl (isDeclaring_container l' name'))
    split at hmem
    · rename_i hdirection
      obtain rfl := eq_of_filling hvalue (isValueName_of_lookup hs hname')
        (List.mem_singleton.1 hmem)
      have hid : q.1 = q'.1 :=
        Handle.text_injective (Prod.mk.inj (hs.key_eq hname hname')).2
      obtain ⟨-, hfield⟩ := Option.ite_none_right_eq_some.1 hl
      obtain ⟨-, hfield'⟩ := Option.ite_none_right_eq_some.1 hl'
      rw [← hid, hfield] at hfield'
      cases hfield'
      exact ⟨hid.symm, hdirection, by rw [if_pos hdirection]⟩
    · cases hmem

theorem exists_of_forall₂ {α β : Type} {R : α → β → Prop} {as : List α} {bs : List β}
    (h : List.Forall₂ R as bs) {b : β} (hb : b ∈ bs) : ∃ a ∈ as, R a b := by
  induction h with
  | nil => cases hb
  | cons hab _ ih =>
    rcases List.mem_cons.1 hb with rfl | hb
    · exact ⟨_, .head _, hab⟩
    · obtain ⟨a, ha, h⟩ := ih hb
      exact ⟨a, .tail _ ha, h⟩

theorem PassedAs.led (hs : names.Sound) {q q' : ExprId × Param} {a : Passing}
    (h : PassedAs env names q' a) (hl : env.program.writtenField? q = some l)
    (hname : names.memo.lookup ("value", q.1.text) = some name) :
    Emission.Led (l.container name) (l.filling name) a.pre := by
  intro hmem
  obtain ⟨-, -, hpre⟩ := h.of_filling_mem hs hl hname hmem
  have hne : l.filling name ≠ l.container name :=
    filling_ne (isValueName_of_lookup hs hname) l (isDeclaring_container l name) (by decide)
  exact ⟨[l.container name], [], hpre, by simpa using hne, .head _⟩

theorem forall₂_writtenPairs {passings : List Passing}
    (h : List.Forall₂ (PassedAs env names) pairs passings) :
    List.Forall₂ (fun w code => ∃ name, names.memo.lookup ("value", w.1.1.text) = some name ∧
      code = w.2.writeBack name) (env.program.writtenPairs pairs)
      (passings.flatMap Passing.post) := by
  induction h with
  | nil => exact .nil
  | @cons q passing pairs passings hq _ ih =>
    unfold Program.writtenPairs
    rw [List.filterMap_cons, List.flatMap_cons]
    cases hl : env.program.writtenField? q with
    | none =>
      rw [(hq.other hl).1]
      exact ih
    | some l =>
      obtain ⟨name, hname, hmarshals⟩ := hq.field l hl
      rw [hmarshals.post_eq]
      exact .cons ⟨name, hname, rfl⟩ ih

/-- A call of a method whose arguments have no calls in them puts the arguments into effect one
after the other: an argument that is a field which the method may change is passed through its
variable, as `Marshals` says, and any other as its expression comes out, with nothing behind the
statement. So the code behind the statement grows by one store for each such argument, in their
order. In front of the statement, a specialized receiver loads what it takes behind the code for it,
and the prototype comes last. Where types go by identifiers, the code that fills a variable stands
behind its declaration, unless it stood there before the call without one, and it is put there only
for an argument that the method reads. -/
theorem written_back_once (p : Program) (hv : p.validate = .ok ()) (id : ExprId) (e : Expr)
    (he : p.expr id = .ok e) (call : Call) (hnode : e.node = .call call) (receiver : Expr)
    (t : ExternalTarget) (hcalls : p.CallsExternal call receiver t)
    (hquiet : ∀ a ∈ call.args, ¬p.ReachesCall a) (env : Env) (henv : env.program = p) (mode : Mode)
    (s u : State) (text : String) (hrun : expr id mode env s = (.ok text, u)) :
    let pairs := t.pairs call
    let n := ExternalTarget.taken receiver
    ∃ taken passed : List Passing,
      let pre := taken.flatMap Passing.pre ++
        ((pairs.take n).zip taken).flatMap (t.loads env (s.memory.names.fresh "var").1) ++
        passed.flatMap Passing.pre ++ [t.prototype env call receiver]
      let post := (taken ++ passed).flatMap Passing.post
      List.Forall₂ (PassedAs env u.memory.names) (pairs.take n) taken ∧
      List.Forall₂ (PassedAs env u.memory.names) (pairs.drop n) passed ∧
      List.Forall₂ (fun w code => ∃ name,
          u.memory.names.memo.lookup ("value", w.1.1.text) = some name ∧ code = w.2.writeBack name)
        (p.writtenPairs pairs) post ∧
      u.emission = s.emission.add pre post ∧ pre ⊆ u.emission.current.pre ∧
      text = invocation (t.function env call.typeArgs)
        (t.passed env call receiver (passed.map Passing.text)) ∧
      (env.toTypeScope.Named → s.memory.names.Sound → ∀ q ∈ pairs, ∀ l name,
        p.writtenField? q = some l → u.memory.names.memo.lookup ("value", q.1.text) = some name →
        (q.2.direction = .inOut →
          Emission.Led (l.container name) (l.filling name) s.emission.current.pre →
          [l.container name, l.filling name].Sublist u.emission.current.pre) ∧
        (l.filling name ∈ pre → ∃ param, (q.1, param) ∈ pairs ∧ param.direction = .inOut)) := by
  have wf := Program.WellFormed.of_validate hv
  subst henv
  intro pairs n
  have hsupply := expr_upkeep (upkeep_sound env.program _) id mode s
  rw [hrun] at hsupply
  have hargs : ∀ a ∈ call.args, ∃ x, env.At a x := fun a ha =>
    wf.exists_part he (hnode ▸ .arg ha)
  have hpairs : ∀ q ∈ pairs, ∃ a, env.At q.1 a := fun q hq =>
    hargs _ (List.of_mem_zip hq).1
  have hcall : ∀ q ∈ pairs, ¬env.program.ReachesCall q.1 := fun q hq =>
    hquiet _ (List.of_mem_zip hq).1
  rw [expr_of_callsExternal wf he hnode hcalls] at hrun
  obtain ⟨s₁, ds, s₂, es, texts, hload, htexts, rfl, rfl⟩ :=
    exists_of_callExternal hcalls.target hargs hrun
  rw [ExternalTarget.loaded_args] at htexts
  obtain ⟨taken, htaken, hemission₁⟩ := exists_of_loadReceiver wf hpairs hcall hload
  obtain ⟨passed, hpassed, rfl, hemission₂⟩ := exists_of_arguments wf
    (fun q hq => hpairs q (List.mem_of_mem_drop hq)) (fun q hq => hcall q (List.mem_of_mem_drop hq))
    htexts
  have hnames := arguments_remember htexts
  replace htaken := htaken.imp fun _ _ h => h.mono hnames
  have hall : List.Forall₂ (PassedAs env s₂.memory.names) pairs (taken ++ passed) := by
    rw [← List.take_append_drop n pairs]
    exact List.rel_append htaken hpassed
  let loads := ((pairs.take n).zip taken).flatMap (t.loads env (s.memory.names.fresh "var").1)
  have hemission : s₂.emission.prepend (t.prototype env call receiver) = s.emission.add
      (taken.flatMap Passing.pre ++ loads ++ passed.flatMap Passing.pre ++
        [t.prototype env call receiver]) ((taken ++ passed).flatMap Passing.post) := by
    rw [Emission.prepend_eq_add, hemission₂]
    dsimp only
    rw [hemission₁, Emission.add_add, Emission.add_add, List.append_nil, List.flatMap_append,
      ← List.append_assoc]
  refine ⟨taken, passed, htaken, hpassed, forall₂_writtenPairs hall, hemission, ?_, rfl, ?_⟩
  · intro code hcode
    rw [hemission]
    exact Emission.mem_add hcode _ _
  intro hnamed hsound q hq l name hl hname
  have hs : s₂.memory.names.Sound := hsupply hsound
  have hvalue := isValueName_of_lookup hs hname
  have hled : ∀ a ∈ taken ++ passed, Emission.Led (l.container name) (l.filling name) a.pre := by
    intro a ha
    obtain ⟨q', -, hq'⟩ := exists_of_forall₂ hall ha
    exact hq'.led hs hl hname
  have hloads : l.filling name ∉ loads := by
    have hvar : IsWord (s.memory.names.fresh "var").1 :=
      (IsStem.identifier ⟨by decide, by decide⟩ _).toIsWord
    intro hmem
    obtain ⟨w, -, hw⟩ := List.mem_flatMap.1 hmem
    exact filling_not_mem_loads hvalue hnamed hvar w hw
  have hprototype : l.filling name ≠ t.prototype env call receiver := by
    refine filling_ne hvalue l (q := (· == 'e')) ?_ (by decide)
    iterate 6 apply starts_append
    decide
  have hput : l.filling name ∈ taken.flatMap Passing.pre ++ loads ++ passed.flatMap Passing.pre ↔
      ∃ a ∈ taken ++ passed, l.filling name ∈ a.pre := by
    rw [List.mem_append, List.mem_append, or_iff_left hloads, ← List.mem_append,
      ← List.flatMap_append, List.mem_flatMap]
  constructor
  · intro hdirection hbefore
    obtain ⟨a, ha, hpassed⟩ := exists_of_forall₂ hall.flip hq
    obtain ⟨name', hname', hmarshals⟩ := PassedAs.field hpassed l hl
    cases hname.symm.trans hname'
    have hfilled := hput.2 ⟨a, ha, by simp [hmarshals.pre_eq, hdirection]⟩
    rw [hemission]
    refine Emission.Led.sublist_add (Emission.Led.append_right ?_ hfilled _)
      (List.mem_append_left _ hfilled) _ hbefore
    exact ((Emission.Led.flatMap fun b hb => hled b (List.mem_append_left _ hb)).append
      (.of_not_mem hloads)).append (.flatMap fun b hb => hled b (List.mem_append_right _ hb))
  · intro hmem
    rw [List.mem_append, List.mem_singleton, or_iff_left hprototype, hput] at hmem
    obtain ⟨a, ha, hmem⟩ := hmem
    obtain ⟨q', hq', hpassed⟩ := exists_of_forall₂ hall ha
    obtain ⟨hid, hdirection, -⟩ := hpassed.of_filling_mem hs hl hname hmem
    exact ⟨q'.2, hid ▸ hq', hdirection⟩

theorem not_reachesCall_of_take {p : Program} {n : Nat} {args : List ExprId} (wf : p.WellFormed)
    (hargs : args.all (·.index < n) = true)
    (h : (p.exprs.toList.take n).all (fun e => !e.node matches .call _) = true) :
    ∀ a ∈ args, ¬p.ReachesCall a := by
  rintro a ha ⟨target, x, call, hr, hx, hnode⟩
  have hlt := of_decide_eq_true (List.all_eq_true.1 hargs a ha)
  have hcall := wf.reached_of_take hlt h hr hx
  rw [hnode] at hcall
  cases hcall

/-- A cell that swaps a field of 16 bits, gives one of 48 bits, and reads the first again. -/
def swappedFields : Program where
  exprs := #[.packet, .packetHeader, .packetField 2 (.bits 16 false) "f" 0,
    .packetField 3 (.bits 48 false) "g" 1, .declared 4 (.specialized ⟨1⟩ [.bits 16 false]) "c" 0,
    .method 5 "swap" 4, .called 6 5 [⟨2⟩, ⟨3⟩, ⟨2⟩]]
  decls := #[⟨"c", .inst (.specialized ⟨1⟩ [.bits 16 false]) []⟩]
  typeDecls := #[⟨"t", .header [⟨"f", .bits 16 false⟩, ⟨"g", .bits 48 false⟩]⟩,
    ⟨"cell", .external ["T"] [⟨"swap", [], [⟨"value", .inOut, .var "T"⟩,
      ⟨"stamp", .out, .bits 48 false⟩, ⟨"key", .into, .bits 16 false⟩], .void⟩]⟩]
  headers := #[⟨"h", ⟨0⟩, false⟩]

/-- The two fields are written back in order, and the third argument adds nothing to that. The first
field is read into its variable behind the declaration. -/
theorem swappedFields_written_back :
    let env : Env := ⟨⟨swappedFields, .standard, .empty⟩, none⟩
    ∃ (t : ExternalTarget) (text : String) (u : State) (codes : List String),
      swappedFields.validate = .ok () ∧
      expr ⟨6⟩ .value env ⟨.empty, .empty⟩ = (.ok text, u) ∧
      u.emission.current.post = codes ∧
      List.Forall₂ (fun w code => ∃ name,
          u.memory.names.memo.lookup ("value", w.1.1.text) = some name ∧ code = w.2.writeBack name)
        (swappedFields.writtenPairs (t.pairs ⟨⟨5⟩, [], [⟨2⟩, ⟨3⟩, ⟨2⟩]⟩)) codes ∧
      codes.length = 2 ∧
      ["uint16_t value_2;",
        "value_2 = (GET_INT32_AUTO_PACKET(pd, header_instance_h, field_t_f));"].Sublist
        u.emission.current.pre := by
  intro env
  have hrun := run_of_toOption (x := expr ⟨6⟩ .value env ⟨.empty, .empty⟩)
    (a := "extern_cell_swap(&(global_smem.c), value_3, " ++
      "(GET_INT32_AUTO_PACKET(pd, header_instance_h, field_t_f)))") (by decide +kernel)
  have hnamed : env.toTypeScope.Named := by
    refine ⟨⟨?_, ?_⟩, nofun⟩ <;> simp +decide [env, swappedFields, TypeDecl.cName?]
  obtain ⟨taken, passed, -, -, hcodes, hemission, -, -, hordered⟩ := written_back_once swappedFields
    rfl ⟨6⟩ _ rfl _ rfl _ _ (.of rfl rfl rfl rfl (by decide) rfl)
    (not_reachesCall_of_take (n := 6) (.of_validate rfl) rfl rfl) env rfl .value _ _ _ hrun
  obtain ⟨hfilled, -⟩ := hordered hnamed .empty _ (.head _) _ "value_2" rfl (by decide +kernel)
  refine ⟨_, _, _, _, rfl, hrun, congrArg (·.current.post) hemission, hcodes, ?_, ?_⟩
  · exact hcodes.length_eq.symm
  · exact hfilled rfl (.of_not_mem List.not_mem_nil)

/-- A cell that takes a payload and swaps a field, with names that have more than names in them. -/
def disguisedRead : Program where
  exprs := #[.packet, .packetHeader, .free 2 (.name ⟨1⟩) "y))",
    ⟨⟨3⟩, .bits 16 false, .member ⟨⟨1⟩, "x", none, some ⟨⟨0⟩, 0⟩⟩⟩,
    .free 4 (.specialized ⟨2⟩ [.name ⟨1⟩]) "c", .method 5 "swap" 4, .called 6 5 [⟨2⟩, ⟨3⟩]]
  typeDecls := #[⟨"t", .header [⟨"x var_1 = y", .bits 16 false⟩]⟩,
    ⟨"value_3 = (GET_INT32_AUTO_PACKET(pd, header_instance_h, field_t_x", .struct [] false⟩,
    ⟨"cell", .external ["T"] [⟨"swap", [], [⟨"value", .into, .var "T"⟩,
      ⟨"key", .inOut, .bits 16 false⟩], .void⟩]⟩]
  headers := #[⟨"h", ⟨0⟩, false⟩]

/-- The payload is loaded by the code that fills the variable of the field, which therefore does not
stand behind the declaration of the variable. -/
theorem disguisedRead_fills_first :
    let call : Call := ⟨⟨5⟩, [], [⟨2⟩, ⟨3⟩]⟩
    let env : Env := ⟨⟨disguisedRead, .standard, .empty⟩, none⟩
    disguisedRead.validate = .ok () ∧ (∀ a ∈ call.args, ¬disguisedRead.ReachesCall a) ∧
    ∃ (receiver : Expr) (t : ExternalTarget) (param : Param) (l : PacketField) (a : Passing)
        (text : String) (u : State),
      disguisedRead.CallsExternal call receiver t ∧
      disguisedRead.writtenPairs (t.pairs call) = [((⟨3⟩, param), l)] ∧ param.direction = .inOut ∧
      expr ⟨6⟩ .value env ⟨.empty, .empty⟩ = (.ok text, u) ∧
      PassedAs env u.memory.names (⟨3⟩, param) a ∧ a.pre ⊆ u.emission.current.pre ∧
      ¬a.pre.Sublist u.emission.current.pre := by
  intro call env
  have hrun := run_of_toOption (x := expr ⟨6⟩ .value env ⟨.empty, .empty⟩)
    (a := "extern_cell_swap(&(global_smem.c), &value_3)") (by decide +kernel)
  have hfield : Marshals ⟨"h", "header_instance_h", "t", "x var_1 = y", 16, false, 16⟩ .inOut
      "value_3" _ := @Marshals.scalar _ _ _ 16 (by decide) rfl (by decide) (by decide)
  refine ⟨rfl, not_reachesCall_of_take (n := 6) (.of_validate rfl) rfl rfl, _, _, _, _, _, _, _,
    .of rfl rfl rfl rfl (by decide) rfl, rfl, rfl, hrun, hfield.passedAs rfl ?_, ?_⟩
  all_goals decide +kernel

end Lower

end PacketC
