import PacketC.Proofs.Scope.Statements

/-! Declaration before use. In the code of a statement, every frame that mentions a name from the
supply declares it first, and once. This is so for the names that occur in nothing else the code is
written with: the texts that are put together from the names of a program can hit on a name that was
handed out, and so can a name that is no identifier. -/

namespace PacketC

open Code Lower

/-- The name was handed out for a list buffer. -/
def NameSupply.NamesBuffer (s : NameSupply) (n : String) : Prop :=
  ∃ e ∈ s.memo, e.1.1 = "buffer" ∧ e.2 = n

instance (s : NameSupply) (n : String) : Decidable (s.NamesBuffer n) :=
  inferInstanceAs (Decidable (∃ e ∈ s.memo, _))

/-- A name that was handed out for a value, and that occurs in nothing else the code is written
with. -/
structure Temporary (scope : TypeScope) (supply : NameSupply) (n : String) : Prop extends
    Unsaid scope n where
  used : n ∈ supply.used
  value : ¬ supply.NamesBuffer n
  others : ∀ m ∈ supply.used, m ≠ n → ¬ Mentions n m

theorem Temporary.clear {scope : TypeScope} {state : Lower.State} {n : String}
    (h : Temporary scope state.memory.names n) : Clear n state where
  others := h.others
  buffers id hid := by
    obtain ⟨before, after, hmemo, _⟩ := List.lookup_eq_some_iff.1 hid
    exact h.value ⟨_, by rw [hmemo]; exact List.mem_append_right _ (.head _), rfl, rfl⟩

namespace Session

variable {config : Config} {p : Program} {stmt : Statement} {block : Option BlockId} {f : Fragment}
  {s' : Session} {n : String}

/-! ### From the start of a session -/

theorem opened_start (config : Config) : Opened ⟨(start config).memory, .empty⟩ :=
  ⟨rfl, [], .empty⟩

/-- All names that are handed out in the first call of a session are numbered. -/
theorem numbered_of_outlined {o : Outlined} {state : Lower.State} (wf : p.WellFormed)
    (htypes : p.TypesNamed) (hquiet : QuietStatement p stmt)
    (h : outlined expr stmt ⟨(start config).scope p, block⟩ ⟨(start config).memory, .empty⟩ =
      (.ok o, state)) : ∀ x ∈ state.memory.names.used, Numbered x := by
  -- which names are handed out does not depend on the one that is followed
  have hforeign : Foreign ((start config).scope p) " _0" :=
    .of_not_isWord ⟨by decide, by decide⟩ (fun h => absurd h.chars (by decide)) wf
  have ha : Apart ((start config).scope p) " _0" := ⟨hforeign, htypes, rfl⟩
  have hleads : Leads ⟨(start config).scope p, block⟩ " _0" Opened (outlined expr stmt)
      fun o => Settled " _0" o.2 := outlined_leads (expr_holds ha.admits) stmt hquiet
  exact (hleads.grows h).numbered nofun

/-- Without transitions in the program, no expression reaches one. -/
theorem quiet_of_forall (h : ∀ e ∈ p.exprs.toList, e.node.name ≠ "SelectExpression")
    (id : ExprId) : p.Quiet id := by
  intro target e _ he keys arms hnode
  refine h e ?_ (by rw [hnode]; rfl)
  exact Array.mem_toList_iff.2 (Program.mem_of_lookup he)

/-- Every frame that mentions a temporary declares it before that, and once. -/
theorem declared_before_use (hvalid : p.validate = .ok ()) (htypes : p.TypesNamed)
    (hquiet : ∀ e, (Task.stmt stmt).Starts p e → p.Quiet e)
    (h : (start config).lowerStatement p stmt block = (.ok f, s'))
    (hn : Temporary ((start config).scope p) s'.names n) :
    words f.render = ((start config).script p stmt block).words ∧
      WellScoped n ((start config).script p stmt block) := by
  refine ⟨words_render h, ?_⟩
  have wf : p.WellFormed := .of_validate hvalid
  obtain ⟨script, state, hrun, hpre, hpost, rfl⟩ := exists_outlined h
  have ha : Apart ((start config).scope p) n :=
    { hn.toUnsaid with
      numbered := numbered_of_outlined wf htypes hquiet hrun n hn.used
      named := htypes
      aliases := rfl
      wellFormed := wf }
  have hleads : Leads ⟨(start config).scope p, block⟩ n Opened (outlined expr stmt)
      fun o => Settled n o.2 := outlined_leads (expr_holds ha.admits) stmt hquiet
  have hsettled := hleads.run hrun (opened_start config) hn.clear
  have hgathered : state.emission.gathered = state.emission.current := by
    rw [Emission.gathered, (hleads.grows hrun).outer]
    simp [Emission.empty]
  rw [Session.script, hrun]
  dsimp only
  rw [hgathered]
  exact hsettled.wellScoped

/-- A field of 48 bits is compared with a constant, which needs an array. -/
def wideMatch : Program where
  exprs := #[.packet, .packetHeader, .packetField 2 (.bits 48 false) "f" 0,
    ⟨⟨3⟩, .bits 48 false, .constant 1 16⟩, .binary 4 .bool .equ 2 3]
  typeDecls := #[⟨"t", .header [⟨"f", .bits 48 false⟩]⟩]
  headers := #[⟨"h", ⟨0⟩, false⟩]

theorem unnumbered_wideMatch : wideMatch.Unnumbered where
  names := show ∀ text ∈ wideMatch.sayings, Unnumbered text by decide
  methods := by simp [wideMatch, TypeDecl.methods]

/-- Both conditionals use the constant, and both declare it. -/
theorem wideMatch_declares_first : ∃ f s',
    (start .standard).lowerStatement wideMatch
      (.cond ⟨4⟩ (some (.cond ⟨4⟩ none none)) none) none = (.ok f, s') ∧
    "uint8_t const_0x000000000001_3[] = \x7b0x00, 0x00, 0x00, 0x00, 0x00, 0x01\x7d;" ∈ f.pre ∧
    WellScoped "const_0x000000000001_3" ((start .standard).script wideMatch
      (.cond ⟨4⟩ (some (.cond ⟨4⟩ none none)) none) none) := by
  obtain ⟨f, s', h, hpre, hnames⟩ : ∃ f s',
      (start .standard).lowerStatement wideMatch
        (.cond ⟨4⟩ (some (.cond ⟨4⟩ none none)) none) none = (.ok f, s') ∧
      f.pre = ["uint8_t h_f_2[6];\n" ++
          "EXTRACT_BYTEBUF_PACKET(pd, header_instance_h, field_t_f, h_f_2);",
        "uint8_t const_0x000000000001_3[] = \x7b0x00, 0x00, 0x00, 0x00, 0x00, 0x01\x7d;"] ∧
      s'.names = ⟨2, ["h_f_2", "const_0x000000000001_3", "h_f_1"],
        [(("const_0x000000000001", "3"), "const_0x000000000001_3")]⟩ := ⟨_, _, rfl, rfl, rfl⟩
  have htypes : wideMatch.TypesNamed :=
    ⟨by simp only [wideMatch, List.mem_toArray, List.mem_singleton, forall_eq]; decide,
      by simp [wideMatch, TypeDecl.cName?]⟩
  have hquiet : ∀ e, wideMatch.Quiet e := quiet_of_forall (by decide)
  have hunsaid : Unsaid ((start .standard).scope wideMatch) "const_0x000000000001_3" :=
    unnumbered_wideMatch.unsaid rfl ⟨by decide, by decide⟩ (by decide) (by decide)
  have htemporary : Temporary ((start .standard).scope wideMatch) s'.names
      "const_0x000000000001_3" :=
    { hunsaid with
      used := by rw [hnames]; decide
      value := by rw [hnames]; decide
      others := by rw [hnames]; decide }
  refine ⟨f, s', h, by rw [hpre]; exact .tail _ (.head _), ?_⟩
  exact (declared_before_use rfl htypes (fun e _ => hquiet e) h htemporary).2

/-! ### Names that stray -/

/-- A name that is handed out for a value and is in no name or string of the program is in the code
of the statement, but is not declared before it is used. -/
structure Strays (config : Config) (p : Program) (stmt : Statement) (block : Option BlockId)
    (n : String) : Prop where
  valid : p.validate = .ok ()
  quiet : ∀ e, (Task.stmt stmt).Starts p e → p.Quiet e
  unsaid : ∀ text, p.Says text → ¬ Mentions n text
  lowered : ∃ f s', (start config).lowerStatement p stmt block = (.ok f, s') ∧
    n ∈ s'.names.used ∧ ¬ s'.names.NamesBuffer n ∧ Mentions n f.render
  scope : ¬ WellScoped n ((start config).script p stmt block)

/-- A name strays if the first piece that mentions it does not declare it. -/
theorem strays_of_first (names : NameSupply) (before : Script) (text : String)
    (hvalid : p.validate = .ok ())
    (hquiet : ∀ e ∈ p.exprs.toList, e.node.name ≠ "SelectExpression")
    (hunsaid : ∀ text ∈ p.sayings, ¬ Mentions n text)
    (hlower : ∃ f s', (start config).lowerStatement p stmt block = (.ok f, s') ∧ s'.names = names)
    (hused : n ∈ names.used) (hvalue : ¬ names.NamesBuffer n)
    (hscript : ∃ rest, (start config).script p stmt block = before ++ .code text :: rest)
    (hbefore : before.firstMention n = none) (htext : Mentions n text)
    (hnot : n.toList ∉ later text.toList) : Strays config p stmt block n := by
  obtain ⟨f, s', h, rfl⟩ := hlower
  obtain ⟨rest, hscript⟩ := hscript
  have hfirst := Script.firstMention_of_first hbefore htext rest
  rw [← hscript] at hfirst
  constructor
  case valid => exact hvalid
  case quiet => exact fun e _ => quiet_of_forall hquiet e
  case unsaid => exact hunsaid
  case lowered =>
    refine ⟨f, s', h, hused, hvalue, ?_⟩
    rw [Mentions, words_render h]
    exact Script.mem_words_of_firstMention hfirst
  case scope =>
    rintro ⟨d, h⟩
    exact hnot (h.declares_firstMention rfl hfirst).mem_later

/-- The field of one header has the name of the identifier of the other. -/
def composedName : Program where
  exprs := #[.packet, ⟨⟨1⟩, .header ⟨0⟩, .member ⟨⟨0⟩, "x_1", some ⟨1⟩, none⟩⟩,
    .method 2 "setInvalid" 1, .called 3 2 [],
    ⟨⟨4⟩, .header ⟨0⟩, .member ⟨⟨0⟩, "header", some ⟨0⟩, none⟩⟩,
    ⟨⟨5⟩, .bits 48 false, .member ⟨⟨4⟩, "instance_x", none, some ⟨⟨0⟩, 0⟩⟩⟩,
    .binary 6 .bool .equ 5 5]
  typeDecls := #[⟨"t", .header [⟨"instance_x", .bits 48 false⟩]⟩]
  headers := #[⟨"header", ⟨0⟩, false⟩, ⟨"x_1", ⟨0⟩, false⟩]

/-- The name for the field is two words, of which the second is the name for the constant. -/
def dashedField : Program where
  exprs := #[.packet, .number 1 48 1, ⟨⟨2⟩, .header ⟨0⟩, .member ⟨⟨0⟩, "h", some ⟨0⟩, none⟩⟩,
    ⟨⟨3⟩, .bits 48 false, .member ⟨⟨2⟩, "a-value", none, some ⟨⟨0⟩, 0⟩⟩⟩, .binary 4 .bool .equ 3 1]
  typeDecls := #[⟨"t", .header [⟨"a-value", .bits 48 false⟩]⟩]
  headers := #[⟨"h", ⟨0⟩, false⟩]

/-- The variable for the payload has a type that goes by no name. -/
def namelessPayload : Program where
  exprs := #[.free 0 (.specialized ⟨0⟩ [.name ⟨1⟩]) "c", .method 1 "put" 0, .free 2 (.name ⟨1⟩) "v",
    .called 3 1 [⟨2⟩]]
  typeDecls := #[⟨"cell", .external ["T"] [⟨"put", [], [⟨"x", .into, .var "T"⟩], .void⟩]⟩,
    ⟨"", .struct [] false⟩]

/-- A store that needs a variable, in a control. -/
def storeInControl : Program where
  exprs := #[.free 0 (.bits 16 false) "v", .number 1 16 5]
  blocks := #[⟨"c", "ctl", .control, []⟩]

/-- The first program has a composed identifier that is also handed out, the second a handed-out
name in which there is another one, the third a variable of a type without a name, and the last a
lock that is taken by the name of a variable. -/
theorem names_stray :
    Strays .standard composedName (.block [.call ⟨3⟩, .cond ⟨6⟩ none none] []) none
      "header_instance_x_1" ∧
    Strays .standard dashedField (.block [.cond ⟨4⟩ none none, .assign ⟨3⟩ ⟨1⟩] []) none
      "value_1" ∧
    Strays .standard namelessPayload (.call ⟨3⟩) none "var_1" ∧
    Strays { Config.standard with lockMacro := "var_1" } storeInControl
      (.atomic [.assign ⟨0⟩ ⟨1⟩]) (some ⟨0⟩) "var_1" := by
  refine ⟨?_, ?_, ?_, ?_⟩
  · exact strays_of_first ⟨2, ["header_instance_x_2", "header_instance_x_1"], []⟩ [.opens]
      ("debug(\"   :: Setting header instance \" T4LIT(x_1,header) \" as \" " ++
        "T4LIT(invalid,success) \"\\n\");\npd->headers[header_instance_x_1].pointer = NULL;")
      rfl (by decide) (by decide) ⟨_, _, rfl, rfl⟩ (by decide) (by decide) ⟨_, rfl⟩ rfl
      (by decide +kernel) (by decide +kernel)
  · exact strays_of_first
      ⟨1, ["value_1", "const_0x000000000001_1", "h_a-value_1"],
        [(("value", "1"), "value_1"), (("const_0x000000000001", "1"), "const_0x000000000001_1")]⟩
      [.opens]
      ("uint8_t h_a-value_1[6];\n" ++
        "EXTRACT_BYTEBUF_PACKET(pd, header_instance_h, field_t_a-value, h_a-value_1);")
      rfl (by decide) (by decide) ⟨_, _, rfl, rfl⟩ (by decide) (by decide) ⟨_, rfl⟩ rfl
      (by decide +kernel) (by decide +kernel)
  · exact strays_of_first ⟨1, ["var_1"], []⟩ [] " var_1 = v;"
      rfl (by decide) (by decide) ⟨_, _, rfl, rfl⟩ (by decide) (by decide) ⟨_, rfl⟩ rfl
      (by decide +kernel) (by decide +kernel)
  · exact strays_of_first ⟨1, ["var_1"], []⟩ [] "var_1(&ctl_lock)"
      rfl (by decide) (by decide) ⟨_, _, rfl, rfl⟩ (by decide) (by decide) ⟨_, rfl⟩ rfl
      (by decide +kernel) (by decide +kernel)

end Session

end PacketC
