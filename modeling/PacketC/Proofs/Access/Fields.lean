import PacketC.Proofs.Access.Statements
import PacketC.Proofs.External.Outcome

/-! The fields that generated code reaches in the packet. Every accessor in the code of a statement,
a declaration or an expression is applied to a field that is reached from there, in its header
instance or in the one for all metadata, and it names the field of the header type. There is one
exception: the members of a payload are extracted with the field of the header instance. -/

namespace PacketC

open Code

/-- The code spells a field by its header and the field of the header type; the field of the header
instance has a name of its own. -/
def Program.SpellsField (p : Program) (ref : FieldRef) (header field own : String) : Prop :=
  ∃ i t f, p.header ref.header = .ok i ∧ p.typeDecl i.headerType = .ok t ∧ p.field ref = .ok f ∧
    header = (if i.isMetadata then "header_instance_all_metadatas"
      else "header_instance_" ++ i.name) ∧
    field = "field_" ++ t.name ++ "_" ++ f.name ∧
    own = "field_instance_" ++ i.name ++ "_" ++ f.name

/-- Where the accessors in the code of a task are applied: to a field that is reached, or to one
that is extracted into a payload. -/
def Task.Applies (p : Program) (t : Task) : Grant := fun accessor header name =>
  ∃ e ref field own, t.Starts p e ∧ p.SpellsField ref header field own ∧
    ((p.ReachesField e ref ∧ name = field) ∨
      (accessor = "EXTRACT_BYTEBUF_PACKET" ∧ p.ReachesPayload e ref ∧ name = own))

theorem Program.spellsField_of_packetField {p : Program} {ref : FieldRef} {l : PacketField}
    (h : p.packetField ref = .ok l) : p.SpellsField ref l.headerId l.fieldId l.fieldInstance := by
  obtain ⟨i, hi, h⟩ := Program.bind_eq_ok_iff.1 h
  obtain ⟨t, ht, h⟩ := Program.bind_eq_ok_iff.1 h
  obtain ⟨f, hf, h⟩ := Program.bind_eq_ok_iff.1 h
  cases h
  exact ⟨i, t, f, hi, ht, hf, rfl, rfl, rfl⟩

theorem Task.permits_applies (p : Program) (t : Task) : t.Permits p (t.Applies p) := by
  intro e he
  constructor
  · intro ref l href hl accessor
    exact ⟨e, ref, _, _, he, Program.spellsField_of_packetField hl, .inl ⟨href, rfl⟩⟩
  · intro ref l href hl
    exact ⟨e, ref, _, _, he, Program.spellsField_of_packetField hl, .inr ⟨rfl, href, rfl⟩⟩

/-- In the code of a task, every accessor names the header and the field of the header type of a
field that is reached, but for the extractions into a payload. -/
theorem accessors_name_reached_fields (p : Program) (hv : p.validate = .ok ())
    (hplain : p.PlainNames) (s : Session) (hs : s.Reachable)
    (hunsaid : ∀ a ∈ accessors, Unsaid (s.scope p) a) (t : Task)
    (hrename : ∀ id name, t = .decl id (some name) → ∀ a ∈ accessors, ¬ Mentions a name)
    (block : Option BlockId) (f : Fragment) (s' : Session)
    (h : t.lower s p block = (.ok f, s')) : Accesses (t.Applies p) f.render := by
  have hm : Muted (s.scope p) := ⟨.of_validate hv, hplain, hunsaid⟩
  rw [Task.lower_eq] at h
  obtain ⟨text, state, hrun, rfl, rfl⟩ := Session.exists_of_run h
  have hwrites : Lower.Writes (s.env p block) (t.Applies p) (Accesses (t.Applies p))
      (t.action Lower.expr) :=
    Lower.action_writes hm t (fun id name ht => free_iff.2 (hrename id name ht))
      (t.permits_applies p)
  obtain ⟨hstate, htext⟩ := hwrites.run hrun ⟨hs.sound, .empty⟩
  obtain ⟨hpre, hpost⟩ := List.forall_mem_append.1 hstate.around.gathered
  refine .stacked (List.forall_mem_append.2 ⟨hpre, List.forall_mem_cons.2 ⟨htext, hpost⟩⟩)

/-! ### Programs that spare the accessors -/

/-- No name of the program is an accessor, no type is called by the first letters of one, and there
are no external objects. -/
structure Program.SparesAccessors (p : Program) : Prop extends p.PlainNames where
  names : ∀ text, p.Says text → Free text
  first : ∀ t ∈ p.typeDecls, starts (fun c => !(['G', 'E', 'M', 's'].contains c)) t.name = true
  methods : ∀ t ∈ p.typeDecls, t.methods = []

namespace Program.SparesAccessors

variable {s : TypeScope}

theorem free_bitsText (form : TypeForm) (width : Nat) (signed : Bool) :
    Free (Ty.bitsText form width signed) := by
  have harray : ∀ head : String, Opening true Free Free head →
      Free (head ++ toString (byteCount width) ++ "]") := fun head hhead =>
    hhead.close (closed_free.number _) rfl
  unfold Ty.bitsText
  generalize Container.ofWidth width = c
  cases signed <;> cases c <;> dsimp only [Container.bits?]
  case false.buffer =>
    split
    · exact harray "uint8_t [" (closed_free.opens rfl)
    · exact free_of_isFree (by decide)
  case true.buffer =>
    split
    · exact harray "int8_t [" (closed_free.opens rfl)
    · exact free_of_isFree (by decide)
  all_goals exact free_of_isFree (by decide)

theorem typeTexts (h : s.program.SparesAccessors) (halias : s.aliases = .empty) :
    TypeTexts s Free where
  aliases _ _ h := by rw [halias] at h; cases h
  void := free_of_isFree (by decide)
  bool := free_of_isFree (by decide)
  bits := free_bitsText
  varbits bytes := (closed_free.opens rfl).close (closed_free.number _) rfl
  unknown ty reason := by
    have hshape : Free ty.shapeName :=
      free_of_isFree (by cases ty <;> simp only [Ty.shapeName] <;> decide)
    exact (closed_free.opens rfl).close hshape rfl
  name t ht := h.names _ (.type ht)
  target t ht c hc := (closed_free.opens rfl).last (h.names _ (.target ht hc))
  external t ht :=
    closed_free.longer (fun hw hlast => (h.names _ (.type ht)).append_word hw hlast) rfl
  struct t ht := by
    refine (closed_free.opens rfl).last (structName_of (h.names _ (.type ht)) fun stem hstem => ?_)
    have hchars := (h.types t ht).toIsWord.chars
    rw [hstem, String.toList_append, List.all_append, Bool.and_eq_true] at hchars
    refine free_of_word (p := fun c => c == 's') ⟨rfl, rfl⟩ ?_ (ends_append (by decide))
    rw [String.toList_append, List.all_append, hchars.1]
    rfl
  specialized t ht text htext := by
    refine Free.word_append ?_ (starts_append (h.first t ht)) htext
    rw [String.toList_append, List.all_append, (h.types t ht).toIsWord.chars]
    rfl

/-- A field of a type or of a header instance. -/
theorem free_field {kind name field : String} (hkind : kind.toList.all isWordChar = true)
    (hfirst : starts (fun c => !(['G', 'E', 'M', 's'].contains c)) kind = true)
    (hname : name.toList.all isWordChar = true) (hfield : Free field) :
    Free (kind ++ name ++ "_" ++ field) := by
  refine Free.word_append ?_ (starts_append (starts_append hfirst)) hfield
  rw [String.toList_append, String.toList_append, List.all_append, List.all_append, hkind, hname]
  rfl

theorem free_composed (h : s.program.SparesAccessors) (halias : s.aliases = .empty) {text : String}
    (htext : Composes s text) : Free text := by
  have htype : ∀ {text}, TypeText s text → Free text := by
    intro text htext
    cases htext with
    | render ty form => exact (h.typeTexts halias).render form ty
    | name ht => exact h.names _ (.type ht)
    | unknown => exact free_of_isFree (by decide)
  have hfield : ∀ {ref l}, s.program.packetField ref = .ok l →
      l.header.toList.all isWordChar = true ∧ l.typeName.toList.all isWordChar = true ∧
        Free l.field := by
    intro ref l hl
    obtain ⟨i, t, f, hi, ht, hf, rfl⟩ := Lower.exists_of_packetField hl
    have hi := Program.mem_of_lookup hi
    refine ⟨(h.headers i hi).toIsWord.chars,
      (h.types t (Program.mem_of_lookup ht)).toIsWord.chars, ?_⟩
    exact h.names _ (.field (Program.mem_of_lookup ht) hf)
  cases htext with
  | header hh => exact Free.word_append (by decide) (by decide) (h.names _ (.header hh))
  | fieldId hl =>
    obtain ⟨_, htypeName, hfield⟩ := hfield hl
    exact free_field (by decide) (by decide) htypeName hfield
  | fieldInstance hl =>
    obtain ⟨hheader, _, hfield⟩ := hfield hl
    exact free_field (by decide) (by decide) hheader hfield
  | @parserField e b m path he hnode hb hpath =>
    refine free_field (by decide) (by decide) ?_ (h.names _ (.member he hnode))
    cases hname : s.program.typeName? b.ty with
    | none =>
      have hpath := h.paths b (Program.mem_of_expr hb) path (node_of_path? hpath)
      exact hpath.toIsWord.chars
    | some name =>
      obtain ⟨t, ht, rfl⟩ := exists_of_typeName? hname
      exact (h.types t ht).toIsWord.chars
  | type htext => exact htype htext
  | function ht hm => rw [h.methods _ ht] at hm; cases hm
  | parameter ht hm => rw [h.methods _ ht] at hm; cases hm

theorem unsaid (h : s.program.SparesAccessors) (halias : s.aliases = .empty)
    (hlock : Free s.config.lockMacro) (hunlock : Free s.config.unlockMacro) :
    ∀ a ∈ accessors, Unsaid s a := by
  intro a ha
  have hfree : ∀ {text}, Free text → ¬ Mentions a text := fun htext => free_iff.1 htext a ha
  constructor
  case names => exact fun text htext => hfree (h.names text htext)
  case texts => exact fun text htext => hfree (h.free_composed halias htext)
  case lock => exact hfree hlock
  case unlock => exact hfree hunlock

end Program.SparesAccessors

/-! ### A header and metadata -/

/-- A new session that writes no traces. -/
def Session.bare : Session := .start { Config.standard with emitDebugTraces := false }

theorem exists_of_toOption {α : Type} {x : Except LowerError Fragment × Session}
    {v : Fragment → α} {a : α} (h : x.1.toOption.map v = some a) :
    ∃ f s', x = (.ok f, s') ∧ v f = a := by
  rcases x with ⟨_ | f, s'⟩
  · cases h
  · exact ⟨f, s', rfl, Option.some.inj h⟩

/-- A header and metadata, each with a short and a long field. If the long fields agree, the short
field of metadata is chosen, and that of the header otherwise. -/
def portStamp : Program where
  exprs := #[.packet, .packetHeader, .packetField 2 (.bits 16 false) "f" 0,
    .packetField 3 (.bits 48 false) "g" 1, ⟨⟨4⟩, .struct ⟨1⟩, .path ⟨"meta", none, true⟩⟩,
    ⟨⟨5⟩, .bits 16 false, .member ⟨⟨4⟩, "port", none, some ⟨⟨1⟩, 0⟩⟩⟩,
    ⟨⟨6⟩, .bits 48 false, .member ⟨⟨4⟩, "stamp", none, some ⟨⟨1⟩, 1⟩⟩⟩, .binary 7 .bool .equ 3 6,
    ⟨⟨8⟩, .bits 16 false, .mux ⟨7⟩ ⟨5⟩ ⟨2⟩⟩]
  typeDecls := #[⟨"t", .header [⟨"f", .bits 16 false⟩, ⟨"g", .bits 48 false⟩]⟩,
    ⟨"meta_t", .struct [⟨"port", .bits 16 false⟩, ⟨"stamp", .bits 48 false⟩] true⟩]
  headers := #[⟨"h", ⟨0⟩, false⟩, ⟨"m", ⟨1⟩, true⟩]

theorem portStamp_sparesAccessors : portStamp.SparesAccessors where
  toPlainNames := by constructor <;> simp [portStamp, TypeDecl.fields] <;> decide
  names text htext := by
    have hall : ∀ text ∈ portStamp.sayings, isFree text.toList = true := by decide
    exact free_of_isFree (hall text htext)
  first := by simp only [portStamp, List.mem_toArray, List.forall_mem_cons]; decide
  methods := by simp [portStamp, TypeDecl.methods]

/-- The short field of the header is set to the one that is chosen: fields are read, copied and
written, of the header and of metadata. -/
theorem portStamp_accessed :
    let t : Task := .stmt (.assign ⟨2⟩ ⟨8⟩)
    let pieces := ["uint8_t h_g_1[6];\n" ++
        "EXTRACT_BYTEBUF_PACKET(pd, header_instance_h, field_t_g, h_g_1);",
      "uint8_t m_stamp_2[6];\n" ++ "EXTRACT_BYTEBUF_PACKET(pd, header_instance_all_metadatas, " ++
        "field_meta_t_stamp, m_stamp_2);",
      "set_field((fldT[])\x7b\x7bpd, header_instance_h, field_t_f\x7d\x7d, 0, " ++
        "(0 == memcmp(h_g_1, m_stamp_2, 6)?" ++
        "(GET_INT32_AUTO_PACKET(pd, header_instance_all_metadatas, field_meta_t_port)):" ++
        "(GET_INT32_AUTO_PACKET(pd, header_instance_h, field_t_f))), 16);"]
    portStamp.validate = .ok () ∧ ∃ f s', t.lower Session.bare portStamp none = (.ok f, s') ∧
      f.pieces = pieces ∧ Accesses (t.Applies portStamp) f.render := by
  intro t pieces
  obtain ⟨f, s', h, hpieces⟩ := exists_of_toOption (x := t.lower Session.bare portStamp none)
    (v := Fragment.pieces) (a := pieces) (by decide +kernel)
  have hunsaid := portStamp_sparesAccessors.unsaid (s := Session.bare.scope portStamp) rfl
    (free_of_isFree rfl) (free_of_isFree rfl)
  refine ⟨rfl, f, s', h, hpieces, ?_⟩
  exact accessors_name_reached_fields portStamp rfl portStamp_sparesAccessors.toPlainNames
    Session.bare (.start _) hunsaid t nofun none f s' h

/-! ### A payload -/

/-- A field of 48 bits is written to a cell, as the only member of a payload. -/
def stampedCell : Program where
  exprs := #[.packet, .packetHeader, .packetField 2 (.bits 48 false) "f" 0,
    ⟨⟨3⟩, .struct ⟨1⟩, .structInit [⟨"a", ⟨2⟩⟩]⟩,
    .declared 4 (.specialized ⟨2⟩ [.struct ⟨1⟩]) "c" 0, .method 5 "write" 4, .called 6 5 [⟨3⟩]]
  decls := #[⟨"c", .inst (.specialized ⟨2⟩ [.struct ⟨1⟩]) []⟩]
  typeDecls := #[⟨"t", .header [⟨"f", .bits 48 false⟩]⟩,
    ⟨"entry", .struct [⟨"a", .bits 48 false⟩] false⟩,
    ⟨"cell", .external ["T"] [⟨"write", [], [⟨"value", .into, .var "T"⟩], .void⟩]⟩]
  headers := #[⟨"h", ⟨0⟩, false⟩]

/-- The only field of the program. -/
theorem stampedCell_spellsField {ref : FieldRef} {header field own : String}
    (h : stampedCell.SpellsField ref header field own) :
    header = "header_instance_h" ∧ field = "field_t_f" := by
  obtain ⟨i, t, f, hi, ht, hf, rfl, rfl, rfl⟩ := h
  have hmem := Program.mem_of_lookup hi
  have hheader : i = ⟨"h", ⟨0⟩, false⟩ := by simpa [stampedCell] using hmem
  subst hheader
  cases ht
  obtain ⟨i', t', hi', ht', hf⟩ := Program.field_eq_ok_iff.1 hf
  cases (Program.lookup_eq_ok_iff.1 hi).symm.trans hi'
  cases ht'
  have hfield : f = ⟨"f", .bits 48 false⟩ := List.mem_singleton.1 (List.mem_of_getElem? hf)
  subst hfield
  exact ⟨rfl, rfl⟩

/-- The field is extracted into the payload under the name that it has in its header instance. No
field of the program is spelled like that. -/
theorem stampedCell_extracted_by_instance :
    let pre := ["struct entry var_1 = (struct entry) \x7b\n" ++
        "    /* a/48b will be initialised afterwards */\n\x7d;",
      "EXTRACT_BYTEBUF_PACKET(pd, header_instance_h, field_instance_h_f, &(var_1.a));",
      "memcpy(&(global_smem.c), &var_1, sizeof(struct entry));",
      "extern void extern_cell_write(struct entry, struct entry);"]
    stampedCell.validate = .ok () ∧
    ∃ f s', Session.bare.lowerExpression stampedCell ⟨6⟩ none .value = (.ok f, s') ∧ f.pre = pre ∧
      ¬ ∀ piece ∈ f.pre, Accesses (fun _ header name =>
        ∃ ref own, stampedCell.SpellsField ref header name own) piece := by
  intro pre
  obtain ⟨f, s', h, hpre⟩ := exists_of_toOption
    (x := Session.bare.lowerExpression stampedCell ⟨6⟩ none .value) (v := Fragment.pre) (a := pre)
    (by decide +kernel)
  refine ⟨rfl, f, s', h, hpre, fun hall => ?_⟩
  rw [hpre] at hall
  obtain ⟨header, field, ⟨ref, own, hspells⟩, hlocation⟩ := hall _ (.tail _ (.head _))
    "EXTRACT_BYTEBUF_PACKET" (by decide) [] _ rfl
  obtain ⟨rfl, rfl⟩ := stampedCell_spellsField hspells
  exact absurd hlocation (by decide +kernel)

end PacketC
