import PacketC.Proofs.Select.Cases

/-! Transitions of a parser go to the first case that matches. Where a transition is lowered for the
first time, the code in front of it reads the keys, and the chain of tests calls the state of the
first case whose patterns accept their values, or no state. Keys that are read from one place have
one value. -/

namespace PacketC

open Code Lower Program

variable {p : Program} {i : ExprId}

/-! ### Values of the keys -/

namespace Program.Select

/-- The values fit the keys, and keys that are read from one place do not differ. -/
structure Coherent (t : p.Select i) (vs : List Nat) : Prop where
  fits : List.Forall₂ (fun k n => n < 2 ^ k.width.toNat) t.keys vs
  agrees : ∀ x ∈ t.keys.zip vs, ∀ y ∈ t.keys.zip vs,
    x.1.place.headerId = y.1.place.headerId → x.1.place.fieldId = y.1.place.fieldId →
      x.1.width = y.1.width ∧ x.2 = y.2

/-- What the runtime holds for the keys. -/
def Reads (rt : Runtime) (t : p.Select i) (vs : List Nat) : Prop :=
  List.Forall₂ (Key.Reads rt) t.keys vs

/-- The first key that is read from the place, with its value. -/
def valueAt (t : p.Select i) (vs : List Nat) (header field : String) : Option (p.Key × Nat) :=
  (t.keys.zip vs).find? fun x => x.1.place.headerId == header && x.1.place.fieldId == field

/-- Each place holds the value of its keys. -/
def runtime (t : p.Select i) (vs : List Nat) : Runtime :=
  .byDifference (fun header field => (t.valueAt vs header field).map fun x => (x.2 : Int))
    (fun header field =>
      (t.valueAt vs header field).map fun x => Literal.bytes x.2 (x.1.width.toNat / 8))
    (fun _ => none) fun _ => none

theorem Coherent.valueAt_eq {t : p.Select i} {vs : List Nat} (h : t.Coherent vs) {k : p.Key}
    {n : Nat} (hmem : (k, n) ∈ t.keys.zip vs) :
    ∃ k', t.valueAt vs k.place.headerId k.place.fieldId = some (k', n) ∧ k'.width = k.width := by
  have hsome : (t.valueAt vs k.place.headerId k.place.fieldId).isSome = true := by
    rw [valueAt, List.find?_isSome]
    exact ⟨_, hmem, by simp⟩
  obtain ⟨⟨k', n'⟩, hfound⟩ := Option.isSome_iff_exists.1 hsome
  have hplace := List.find?_some hfound
  rw [Bool.and_eq_true, beq_iff_eq, beq_iff_eq] at hplace
  obtain ⟨hw, hn⟩ := h.agrees _ (List.mem_of_find?_eq_some hfound) _ hmem hplace.1 hplace.2
  exact ⟨k', by rw [hfound, show n' = n from hn], hw⟩

theorem Coherent.reads {t : p.Select i} {vs : List Nat} (h : t.Coherent vs) :
    t.Reads (t.runtime vs) vs := by
  refine List.forall₂_iff_zip.2 ⟨h.fits.length_eq, fun {k n} hmem => ?_⟩
  have hlt := List.forall₂_zip h.fits hmem
  obtain ⟨k', hvalue, hw⟩ := h.valueAt_eq hmem
  refine ⟨hlt, ?_⟩
  split
  · simp [runtime, Runtime.byDifference, hvalue]
  · rename_i hwide
    have hdvd : 8 ∣ k.width.toNat := Key.dvd_of_wide (by simpa [Key.isNarrow] using hwide)
    rw [← pow_bytes hdvd] at hlt
    simpa [runtime, Runtime.byDifference, hvalue, hw] using encodes_bytes hlt

end Program.Select

/-! ### Names -/

theorem Program.Key.not_starts (k : p.Key) : starts (· == 'v') k.place.headerId = false ∧
    starts (· == 'v') k.place.fieldId = false := by
  have hother : ∀ {a : String} (c : Char), starts (· == c) a = true → c ≠ 'v' →
      starts (· == 'v') a = false := by
    intro a c h hne
    unfold starts at *
    cases ha : a.toList.head? with
    | none => rfl
    | some d =>
      rw [ha, Option.any_some, beq_iff_eq] at h
      rw [Option.any_some, beq_eq_false_iff_ne, h]
      exact hne
  obtain ⟨h, -, t, -, -, -, -, hfield, hheader, -⟩ := k.field.place_spec
  rw [Key.place, hheader, hfield]
  refine ⟨hother 'h' ?_ (by decide), hother 'f' ?_ (by decide)⟩
  · split
    · decide
    · exact starts_append (by decide)
  · exact starts_append (starts_append (starts_append (by decide)))

theorem callee_stateFunction {state : String} (h : state.toList.all isWordChar = true) :
    Callee (stateFunction state) := by
  have hmark : Label "parser_state_" := by decide
  refine ⟨hmark.append (by decide) h, by simp [stateFunction], fun heq => ?_⟩
  have hhead := congrArg (fun x => x.toList.head?) heq
  simp [stateFunction] at hhead

/-! ### Lowering -/

/-- What a transition does once it is known that its keys are to be declared. -/
def declaredTransition (keys : List ExprId) (cases : List SelectArm) : LowerM String := do
  let names ← keyNames Lower.expr true keys
  let branches ← cases.mapM (branch Lower.expr (keys.zip names))
  return String.intercalate "\nelse\n" branches

theorem expr_first {env : Env} (wf : env.program.WellFormed) {keys : List ExprId} {ty : Ty}
    {cases : List SelectArm} (h : env.program.Is i ty (.select keys cases)) {memory : Memory}
    (hfirst : memory.isGenerated i = false) (mode : Mode) (emission : Emission) :
    Lower.expr i mode env ⟨memory, emission⟩ = declaredTransition keys cases env
      ⟨{ memory with generated := i :: memory.generated }, emission⟩ := by
  obtain ⟨id, he⟩ := h
  obtain rfl : id = i := id_of_expr wf he
  rw [expr_eq_nodeText wf he]
  show transition Lower.expr id keys cases env _ = _
  unfold transition
  rw [run_bind, run_firstTime]
  simp only [hfirst]
  rfl

/-- The text is a chain of branches, each under a test of its case. -/
def Program.Select.Written (t : p.Select i) (text : String) (hs : List Hoisted) : Prop :=
  ∃ texts, text = String.intercalate "\nelse\n" texts ∧ List.Forall₂ (fun c text => ∃ test,
    text = Branch.text test (stateFunction c.state) "pd, buf, tables, pstate" ∧
    ∀ rt m vs, Hoisted.Holds rt hs m → t.Reads rt vs →
      Guards (m.store rt) test (c.accepts vs = true)) t.cases texts

theorem lays_transition (env : Env) (wf : env.program.WellFormed)
    (t : env.program.Select i)
    (hlabels : ∀ k ∈ t.keys, Label k.place.headerId ∧ Label k.place.fieldId) :
    Lays (selectPlan t.keys hlabels).ledger env false
      (declaredTransition (t.keys.map Key.id) (t.cases.map fun c => ⟨c.id, c.state⟩))
      t.Written := by
  unfold declaredTransition
  simp only [List.mapM_map]
  exact .bind (lays_keyNames wf hlabels fun _ h => h) fun names =>
    .bind (.mapM fun c _ => lays_branch wf hlabels c names) fun texts =>
      .pure fun _ htexts hnames => ⟨texts, rfl, htexts.imp fun _ _ h => h hnames⟩

/-! ### Dispatch -/

theorem arguments_state : Arguments "pd, buf, tables, pstate" stateArgs := by
  have hcomma : Symbol ", " [.one ','] := by decide
  have hpd : Label "pd" := by decide
  have hbuf : Label "buf" := by decide
  have htables : Label "tables" := by decide
  have hpstate : Label "pstate" := by decide
  exact ((hpstate.operand.arguments.cons hcomma htables.operand).cons hcomma hbuf.operand).cons
    hcomma hpd.operand

/-- The call of a state of the parser. -/
def stateCall (state : String) : String × List Term := (stateFunction state, stateArgs)

theorem Program.Select.Written.run {t : p.Select i} {text : String} {hs : List Hoisted}
    (h : t.Written text hs) (hstates : ∀ c ∈ t.cases, c.state.toList.all isWordChar = true)
    {rt : Runtime} {m : Machine} {vs : List Nat} (hm : Hoisted.Holds rt hs m)
    (hvs : t.Reads rt vs) :
    runPiece rt m text =
      some { m with calls := m.calls ++ ((t.target vs).map stateCall).toList } := by
  obtain ⟨texts, rfl, htexts⟩ := h
  have hflat : isFlat "pd, buf, tables, pstate" = true := by simp [isFlat]
  have hbranches : List.Forall₂ (fun c text => Callee (stateFunction c.state) ∧ ∃ test,
      text = Branch.text test (stateFunction c.state) "pd, buf, tables, pstate" ∧
      Guards (m.store rt) test (c.accepts vs = true)) t.cases texts := by
    refine (List.forall₂_and_left _ _).2
      ⟨fun c hc => callee_stateFunction (hstates c hc), htexts.imp ?_⟩
    rintro c _ ⟨test, rfl, hguards⟩
    exact ⟨test, rfl, hguards rt m vs hm hvs⟩
  rw [runPiece_chain arguments_state hflat hbranches, Select.target, Option.map_map]
  rfl

/-- What is declared can be read, and hides nothing that the declarations read. -/
theorem selectPlan_spec {keys : List p.Key}
    {hlabels : ∀ k ∈ keys, Label k.place.headerId ∧ Label k.place.fieldId} {s : Lower.State}
    {hs : List Hoisted} (h : Laid (selectPlan keys hlabels) s hs) {rt : Runtime} {vs : List Nat}
    (hvs : List.Forall₂ (Key.Reads rt) keys vs) {k : Hoisted} (hk : k ∈ hs) :
    (∃ slot, k.content.slot rt = some slot) ∧
      ∀ y ∈ k.content.mentions, y ∉ hs.map Hoisted.name := by
  obtain ⟨-, ⟨key, hkey, hcontent⟩ | ⟨w, value, base, -, hcontent⟩⟩ := h.allowed k hk
  · refine ⟨?_, fun y hy hmem => ?_⟩
    · have hslots := hvs.imp fun k _ hn => And.intro (k.exists_slot hn) hn
      rw [hcontent]
      exact ((List.forall₂_and_left _ _).1 hslots).1 key hkey
    · obtain ⟨k', hk', rfl⟩ := List.mem_map.1 hmem
      obtain ⟨⟨id, hid⟩, -⟩ := h.allowed k' hk'
      have hplaces : k.content.mentions = [key.place.headerId, key.place.fieldId] := by
        rw [hcontent, Key.content, fieldContent]
        split <;> rfl
      have hv := starts_of_derived hid
      rw [hplaces, List.mem_cons, List.mem_singleton] at hy
      rcases hy with hy | hy
      · rw [hy, key.not_starts.1] at hv
        cases hv
      · rw [hy, key.not_starts.2] at hv
        cases hv
  · rw [hcontent]
    exact ⟨⟨_, slot_bytesContent rt value base⟩, fun _ hy => (List.not_mem_nil hy).elim⟩

namespace Session

/-- Where a transition is lowered for the first time, no diagnostic is recorded, and the code in
front of it and the chain of its tests run for all values that the keys can have: they call the
state of the first case that accepts the values, and nothing else. -/
theorem select_dispatches (hv : p.validate = .ok ()) {s : Session} (hs : s.Reachable)
    (t : p.Select i) (hfirst : s.isGenerated i = false)
    (hlabels : ∀ k ∈ t.keys, Label k.place.headerId ∧ Label k.place.fieldId)
    (hstates : ∀ c ∈ t.cases, c.state.toList.all isWordChar = true) (block : Option BlockId)
    (mode : Mode) :
    ∃ f s', s.lowerExpression p i block mode = (.ok f, s') ∧ s'.diagnostics = s.diagnostics ∧
      f.post = [] ∧ ∀ vs, t.Coherent vs → (∃ rt, t.Reads rt vs) ∧ ∀ rt, t.Reads rt vs →
        (runPieces rt .start (f.pre ++ [f.text])).map Machine.calls =
          some ((t.target vs).map stateCall).toList := by
  have wf := WellFormed.of_validate hv
  have hlays := lays_transition (s.env p block) wf t hlabels
  obtain ⟨text, state, hs, ds, hrun, hlaid, hds, hquiet, hwritten⟩ :=
    hlays.run_session (expr_first wf t.is hfirst mode .empty) (Laid.start hs.sound) rfl
  obtain rfl := hquiet rfl
  rw [List.append_nil] at hds
  refine ⟨_, _, hrun, hds, rfl, fun vs hvs => ⟨⟨_, hvs.reads⟩, fun rt hreads => ?_⟩⟩
  obtain ⟨m, hm, hcalls, hholds, -⟩ := hlaid.run
    (fun k hk => (selectPlan_spec hlaid hreads hk).1)
    fun k hk => (selectPlan_spec hlaid hreads hk).2
  have hchain : runPiece rt m text =
      some { m with calls := m.calls ++ ((t.target vs).map stateCall).toList } :=
    (hwritten rfl).run hstates hholds hreads
  rw [runPieces] at hm ⊢
  rw [List.foldlM_append, hm]
  simp [hchain, hcalls]

/-- A transition on a field of 8 bits and one of 48 bits, with a mask and a constant in the first
case, a range in the second, and a default. -/
def mixedSelect : Program where
  exprs := #[.packet, .packetHeader, .packetField 2 (.bits 8 false) "a" 0,
    .packetField 3 (.bits 48 false) "b" 1, ⟨⟨4⟩, .bits 8 false, .constant 16 16⟩,
    ⟨⟨5⟩, .bits 8 false, .constant 240 16⟩, ⟨⟨6⟩, .bits 8 false, .mask ⟨4⟩ ⟨5⟩⟩,
    ⟨⟨7⟩, .bits 48 false, .constant 258 16⟩, .list 8 [⟨6⟩, ⟨7⟩], .number 9 8 1, .number 10 8 5,
    ⟨⟨11⟩, .bits 8 false, .range ⟨9⟩ ⟨10⟩⟩, ⟨⟨12⟩, .void, .default⟩, .list 13 [⟨11⟩, ⟨12⟩],
    ⟨⟨14⟩, .void, .select [⟨2⟩, ⟨3⟩] [⟨⟨8⟩, "first"⟩, ⟨⟨13⟩, "second"⟩, ⟨⟨12⟩, "rest"⟩]⟩]
  typeDecls := #[⟨"t", .header [⟨"a", .bits 8 false⟩, ⟨"b", .bits 48 false⟩]⟩]
  headers := #[⟨"h", ⟨0⟩, false⟩]

namespace mixedSelect

def narrow : mixedSelect.Key where
  id := ⟨2⟩
  width := 8
  field := ⟨_, ⟨⟨0⟩, 0⟩, _, _, ⟨⟨2⟩, rfl⟩, rfl, rfl, rfl, rfl⟩
  sized := .inl ⟨by decide, by decide⟩

def wide : mixedSelect.Key where
  id := ⟨3⟩
  width := 48
  field := ⟨_, ⟨⟨0⟩, 1⟩, _, _, ⟨⟨3⟩, rfl⟩, rfl, rfl, rfl, rfl⟩
  sized := .inr ⟨by decide, by decide⟩

def select : mixedSelect.Select ⟨14⟩ where
  keys := [narrow, wide]
  cases := [
    ⟨"first", ⟨8⟩, .list ⟨⟨8⟩, rfl⟩ (.cons (.masked ⟨⟨6⟩, rfl⟩ (by decide) ⟨16, 16, ⟨⟨4⟩, rfl⟩⟩
      ⟨240, 16, ⟨⟨5⟩, rfl⟩⟩) (.cons (.exactly ⟨258, 16, ⟨⟨7⟩, rfl⟩⟩) .nil))⟩,
    ⟨"second", ⟨13⟩, .list ⟨⟨13⟩, rfl⟩ (.cons (.between ⟨⟨11⟩, rfl⟩ (by decide)
      ⟨1, 10, ⟨⟨9⟩, rfl⟩⟩ ⟨5, 10, ⟨⟨10⟩, rfl⟩⟩) (.cons (.any ⟨⟨12⟩, rfl⟩) .nil))⟩,
    ⟨"rest", ⟨12⟩, .all ⟨⟨12⟩, rfl⟩⟩]
  ty := .void
  is := ⟨⟨14⟩, rfl⟩

theorem coherent {a b : Nat} (ha : a < 2 ^ 8) (hb : b < 2 ^ 48) : select.Coherent [a, b] where
  fits := .cons ha (.cons hb .nil)
  agrees := by
    have hfields : narrow.place.fieldId ≠ wide.place.fieldId := by decide
    rintro x hx y hy - hfield
    have hxs : x = (narrow, a) ∨ x = (wide, b) := by simpa [select] using hx
    have hys : y = (narrow, a) ∨ y = (wide, b) := by simpa [select] using hy
    rcases hxs with rfl | rfl <;> rcases hys with rfl | rfl
    · exact ⟨rfl, rfl⟩
    · exact absurd hfield hfields
    · exact absurd hfield.symm hfields
    · exact ⟨rfl, rfl⟩

end mixedSelect

/-- The mask of the first case accepts 19, the range of the second does not; the last case takes
what no other case accepts. -/
theorem mixedSelect_dispatches : ∃ f s',
    (start .standard).lowerExpression mixedSelect ⟨14⟩ none .value = (.ok f, s') ∧
    f.pre.length = 3 ∧ (∃ rt, mixedSelect.select.Reads rt [19, 258]) ∧
    (∀ rt, mixedSelect.select.Reads rt [19, 258] →
      (runPieces rt .start (f.pre ++ [f.text])).map Machine.calls = some [stateCall "first"]) ∧
    (∀ rt, mixedSelect.select.Reads rt [3, 258] →
      (runPieces rt .start (f.pre ++ [f.text])).map Machine.calls = some [stateCall "second"]) ∧
    ∀ rt, mixedSelect.select.Reads rt [19, 257] →
      (runPieces rt .start (f.pre ++ [f.text])).map Machine.calls = some [stateCall "rest"] := by
  have hlabels : ∀ k ∈ mixedSelect.select.keys, Label k.place.headerId ∧ Label k.place.fieldId := by
    decide
  obtain ⟨f, s', h, -, -, hdispatch⟩ := select_dispatches rfl (.start .standard) mixedSelect.select
    rfl hlabels (by decide) none .value
  obtain ⟨g, t', hg, hpre⟩ : ∃ g t',
      (start .standard).lowerExpression mixedSelect ⟨14⟩ none .value = (.ok g, t') ∧
      g.pre.length = 3 := ⟨_, _, rfl, rfl⟩
  cases h.symm.trans hg
  obtain ⟨hreads, hfirst⟩ := hdispatch [19, 258] (mixedSelect.coherent (by decide) (by decide))
  exact ⟨f, s', h, hpre, hreads, hfirst,
    (hdispatch [3, 258] (mixedSelect.coherent (by decide) (by decide))).2,
    (hdispatch [19, 257] (mixedSelect.coherent (by decide) (by decide))).2⟩

/-! ### Transitions that go astray -/

/-- Two metadata of one type have a field each, and a transition on both of them expects 1 in the
first and 2 in the second. Another one goes to a state with a blank in its name. -/
def straySelects : Program where
  exprs := #[⟨⟨0⟩, .void, .path ⟨"meta", none, true⟩⟩,
    ⟨⟨1⟩, .bits 8 false, .member ⟨⟨0⟩, "f", none, some ⟨⟨0⟩, 0⟩⟩⟩,
    ⟨⟨2⟩, .bits 8 false, .member ⟨⟨0⟩, "f", none, some ⟨⟨1⟩, 0⟩⟩⟩, .number 3 8 1, .number 4 8 2,
    .list 5 [⟨3⟩, ⟨4⟩], ⟨⟨6⟩, .void, .select [⟨1⟩, ⟨2⟩] [⟨⟨5⟩, "next"⟩]⟩,
    ⟨⟨7⟩, .void, .select [⟨1⟩] [⟨⟨3⟩, "a b"⟩]⟩]
  typeDecls := #[⟨"t", .struct [⟨"f", .bits 8 false⟩] true⟩]
  headers := #[⟨"m", ⟨0⟩, true⟩, ⟨"n", ⟨0⟩, true⟩]

namespace straySelects

def first : straySelects.Key where
  id := ⟨1⟩
  width := 8
  field := ⟨_, ⟨⟨0⟩, 0⟩, _, _, ⟨⟨1⟩, rfl⟩, rfl, rfl, rfl, rfl⟩
  sized := .inl ⟨by decide, by decide⟩

def second : straySelects.Key where
  id := ⟨2⟩
  width := 8
  field := ⟨_, ⟨⟨1⟩, 0⟩, _, _, ⟨⟨2⟩, rfl⟩, rfl, rfl, rfl, rfl⟩
  sized := .inl ⟨by decide, by decide⟩

def twins : straySelects.Select ⟨6⟩ where
  keys := [first, second]
  cases := [⟨"next", ⟨5⟩, .list ⟨⟨5⟩, rfl⟩ (.cons (.exactly ⟨1, 10, ⟨⟨3⟩, rfl⟩⟩)
    (.cons (.exactly ⟨2, 10, ⟨⟨4⟩, rfl⟩⟩) .nil))⟩]
  ty := .void
  is := ⟨⟨6⟩, rfl⟩

def spaced : straySelects.Select ⟨7⟩ where
  keys := [first]
  cases := [⟨"a b", ⟨3⟩, .single (.cons (.exactly ⟨1, 10, ⟨⟨3⟩, rfl⟩⟩) .nil)⟩]
  ty := .void
  is := ⟨⟨7⟩, rfl⟩

end straySelects

namespace straySelects

/-- Either key is read in the same way. -/
def read (x : String) : String :=
  "uint8_t " ++ x ++ " = (GET_INT32_AUTO_PACKET(pd, header_instance_all_metadatas, field_t_f));"

def item (x : String) : Item :=
  .scalar ⟨false, 8⟩ x (.call "GET_INT32_AUTO_PACKET"
    [.name "pd", .name "header_instance_all_metadatas", .name "field_t_f"])

/-- The test compares the same number with 1 and with 2. -/
def chain : Stmt :=
  .cond (.binary .land (.binary .eq (.name "value_1") (.cast ⟨false, 8⟩ (.num 1)))
    (.binary .eq (.name "value_2") (.cast ⟨false, 8⟩ (.num 2))))
    (.seq (.call "parser_state_next" stateArgs) .skip) .skip

theorem exec_item {rt : Runtime} {m m' : Machine} {x : String}
    (h : (item x).exec rt m = some m') :
    ∃ v, rt.number "header_instance_all_metadatas" "field_t_f" = some v ∧
      m' = { m with vars := (x, .scalar (v % 2 ^ 8)) :: m.vars } := by
  obtain ⟨v, hv, hm⟩ := Option.bind_eq_some_iff.1 h
  change (if _ then _ else _) = _ at hv
  change (if _ then _ else _) = _ at hm
  split at hv
  · split at hm
    · exact ⟨v, hv, (Option.some.inj hm).symm⟩
    · cases hm
  · cases hv

theorem exec_chain (rt : Runtime) (w : Int) :
    chain.exec rt ⟨[("value_2", .scalar w), ("value_1", .scalar w)], []⟩ =
      some ⟨[("value_2", .scalar w), ("value_1", .scalar w)], []⟩ := by
  let m : Machine := ⟨[("value_2", .scalar w), ("value_1", .scalar w)], []⟩
  have hone : (Term.binary .eq (.name "value_1") (.cast ⟨false, 8⟩ (.num 1))).eval (m.store rt) =
      some (truth (w = 1)) := Term.eval_binary (x := w) (y := 1) rfl rfl
  have htwo : (Term.binary .eq (.name "value_2") (.cast ⟨false, 8⟩ (.num 2))).eval (m.store rt) =
      some (truth (w = 2)) := Term.eval_binary (x := w) (y := 2) rfl rfl
  have hboth : (Term.binary .land _ _).eval (m.store rt) =
      some (truth (truth (w = 1) ≠ 0 ∧ truth (w = 2) ≠ 0)) := Term.eval_binary hone htwo
  have hfalse : truth (truth (w = 1) ≠ 0 ∧ truth (w = 2) ≠ 0) = 0 := by
    by_cases h : w = 1
    · subst h
      decide
    · simp [truth, h]
  rw [chain, Stmt.exec, hboth, hfalse]
  rfl

end straySelects

/-- Both fields are read from the same place, so the case that expects 1 and 2 is never taken; and
the call of a state with a blank in its name is no statement. -/
theorem straySelects_astray : straySelects.validate = .ok () ∧
    (∃ f s', (start .standard).lowerExpression straySelects ⟨6⟩ none .value = (.ok f, s') ∧
      straySelects.twins.target [1, 2] = some "next" ∧
      ∀ rt, (runPieces rt .start (f.pre ++ [f.text])).map Machine.calls ≠ some [stateCall "next"]) ∧
    ∃ f s', (start .standard).lowerExpression straySelects ⟨7⟩ none .value = (.ok f, s') ∧
      straySelects.spaced.target [1] = some "a b" ∧
      ∀ rt, (runPieces rt .start (f.pre ++ [f.text])).map Machine.calls ≠
        some [stateCall "a b"] := by
  obtain ⟨f, s', hf, hpre, htext⟩ : ∃ f s',
      (start .standard).lowerExpression straySelects ⟨6⟩ none .value = (.ok f, s') ∧
      f.pre = [straySelects.read "value_1", straySelects.read "value_2"] ∧
      f.text = "if(value_1 == (uint8_t)1 && value_2 == (uint8_t)2)\x7b" ++
        "parser_state_next(pd, buf, tables, pstate);\x7d" := ⟨_, _, rfl, rfl, rfl⟩
  obtain ⟨g, t', hg, hpre', htext'⟩ : ∃ g t',
      (start .standard).lowerExpression straySelects ⟨7⟩ none .value = (.ok g, t') ∧
      g.pre = [straySelects.read "value_1"] ∧
      g.text = "if(value_1 == (uint8_t)1)\x7bparser_state_a b(pd, buf, tables, pstate);\x7d" :=
    ⟨_, _, rfl, rfl, rfl⟩
  refine ⟨rfl, ⟨f, s', hf, rfl, fun rt hcalls => ?_⟩, g, t', hg, rfl, fun rt hcalls => ?_⟩
  · rw [hpre, htext] at hcalls
    obtain ⟨m, hm, hcalls⟩ := Option.map_eq_some_iff.1 hcalls
    obtain ⟨m₁, hone, hm⟩ := Option.bind_eq_some_iff.1 hm
    obtain ⟨m₂, htwo, hm⟩ := Option.bind_eq_some_iff.1 hm
    obtain ⟨m₃, hchain, hm⟩ := Option.bind_eq_some_iff.1 hm
    rw [runPiece_single (i := straySelects.item "value_1") rfl] at hone
    rw [runPiece_single (i := straySelects.item "value_2") rfl] at htwo
    rw [runPiece_single (i := .stmt straySelects.chain) rfl] at hchain
    obtain ⟨v, hv, rfl⟩ := straySelects.exec_item hone
    obtain ⟨w, hw, rfl⟩ := straySelects.exec_item htwo
    obtain rfl := Option.some.inj (hv.symm.trans hw)
    cases hchain.symm.trans (straySelects.exec_chain rt _)
    cases hm
    cases hcalls
  · rw [hpre', htext'] at hcalls
    obtain ⟨m, hm, -⟩ := Option.map_eq_some_iff.1 hcalls
    obtain ⟨m₁, -, hm⟩ := Option.bind_eq_some_iff.1 hm
    -- the name and the word after it are not an expression
    cases hm

end Session

end PacketC
