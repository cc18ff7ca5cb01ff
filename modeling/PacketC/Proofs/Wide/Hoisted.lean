import PacketC.Proofs.Code.Reading
import PacketC.Proofs.Scalar.Place

/-! Declarations in front of a statement, and what they leave in the machine. A field of the packet
is kept in a scalar or in an array of bytes, a constant in an array. If no name is declared twice
and none of them hides a name that the declarations read, then all of them run, and each variable
holds what it was declared with. -/

namespace PacketC

open Code Lower

/-- What a name is declared with. -/
inductive Content where
  | value (width : Nat) (l : PacketField)
  | field (size : Nat) (l : PacketField)
  /-- The bytes of a constant, each as it is written. -/
  | constant (sized : Bool) (texts : List String) (bytes : List UInt8)

namespace Content

def text (x : String) : Content → String
  | .value width l => s!"{Ty.bitsText .parameter width false} {x} = {packetValue l};"
  | .field size l => packetBuffer l x size
  | .constant true texts bytes => s!"uint8_t {x}[{bytes.length}] = {Literal.braced texts};"
  | .constant false texts _ => s!"uint8_t {x}[] = {Literal.braced texts};"

/-- The names of the target that are read. -/
def mentions : Content → List String
  | .value _ l | .field _ l => [l.headerId, l.fieldId]
  | .constant .. => []

def Plain : Content → Prop
  | .value width l => width ≤ 32 ∧ Label l.headerId ∧ Label l.fieldId
  | .field _ l => Label l.headerId ∧ Label l.fieldId
  | .constant _ texts bytes => List.Forall₂ Numeral texts (bytes.map UInt8.toNat)

/-- The type of the scalar that holds a value of the width. -/
def scalarType (width : Nat) : IntType := ⟨false, (Container.ofWidth width).bits?.getD 0⟩

/-- What the variable holds once it is declared. -/
def slot (rt : Runtime) : Content → Option Slot
  | .value width l =>
    (rt.number l.headerId l.fieldId).map fun v => .scalar ((scalarType width).wrap v)
  | .field size l =>
    (rt.bytes l.headerId l.fieldId).bind fun bs =>
      if bs.length = size then some (.bytes bs) else none
  | .constant _ _ bytes => some (.bytes bytes)

end Content

/-! ### Reading the declarations -/

section Reading

variable {x : String} {l : PacketField} {texts : List String}

theorem packetValue_eq (l : PacketField) :
    packetValue l = (Place.packetField l.headerId l.fieldId).text := by
  unfold packetValue Place.text
  rfl

theorem isFlat_packetValue (hh : Label l.headerId) (hf : Label l.fieldId) :
    isFlat (packetValue l) = true := by
  unfold packetValue
  simp +decide [isFlat_of_word hh.chars, isFlat_of_word hf.chars]

theorem lex_word_append {w rest : String} (hw : IsWord w) (h : starts isMark rest = true) :
    lex (w ++ rest).toList = .word w.toList :: lex rest.toList := by
  rw [hw.solid.lex_before h, hw.lex_eq, List.singleton_append]

/-- A word between two marks. -/
theorem lex_mark_word {a w rest : String} (hw : IsWord w) (ha : ends isMark a = true)
    (h : starts isMark rest = true) :
    lex (a ++ (w ++ rest)).toList = lex a.toList ++ .word w.toList :: lex rest.toList := by
  rw [hw.solid.lex_between ha h, hw.lex_eq, List.singleton_append]

theorem items_value {width : Nat} (hw : width ≤ 32) (hx : Label x) (hh : Label l.headerId)
    (hf : Label l.fieldId) :
    items ((Content.value width l).text x) = some [.scalar (Content.scalarType width) x
      (Place.packetField l.headerId l.fieldId).term] := by
  obtain ⟨n, hn, -, htype⟩ := bitsText_scalar hw false
  have hword := isWord_of_ofName? htype
  have hvalue : Operand (packetValue l) (Place.packetField l.headerId l.fieldId).term := by
    have hplain : (Place.packetField l.headerId l.fieldId).Plain := ⟨hh, hf⟩
    rw [packetValue_eq]
    exact Place.operand hplain
  have htext : (Content.value width l).text x =
      Ty.bitsText .parameter width false ++ (" " ++ (x ++ (" = " ++ (packetValue l ++ ";")))) := by
    simp only [← String.append_assoc]
    rfl
  have hflat : isFlat ((Content.value width l).text x) = true := by
    simp +decide [htext, isFlat_of_word hword.chars, isFlat_of_word hx.chars,
      isFlat_packetValue hh hf]
  have hblank : lex " ".toList = [] := by decide
  have hassign : lex " = ".toList = [.one '='] := by decide
  have hend : lex ";".toList = [.one ';'] := by decide
  have htokens : tokens ((Content.value width l).text x) =
      .word (Ty.bitsText .parameter width false).toList :: .word x.toList :: .one '=' ::
        (lex (packetValue l).toList ++ [.one ';']) := by
    rw [tokens_of_flat hflat, htext, lex_word_append hword (starts_append (by decide)),
      lex_mark_word hx.toIsWord (by decide) (starts_append (by decide)), hblank,
      hvalue.lex_between (by decide) (by decide), hassign, hend]
    rfl
  have hread := readItem_scalar (x := x) htype hvalue.spells []
  have htype' : Content.scalarType width = ⟨false, n⟩ := by rw [Content.scalarType, hn]; rfl
  rw [htype']
  exact items_single htokens hread

theorem numeral_toString (n : Nat) : Numeral (toString n) n := by
  rw [Nat.toString_eq_ofList_toDigits]
  exact numeral_decimal n

@[simp]
theorem isFlat_repr (n : Nat) : isFlat n.repr = true := isFlat_of_word (numeral_toString n).chars

/-- The call that copies a field. -/
def extractCall (l : PacketField) (x : String) : Stmt :=
  .call "EXTRACT_BYTEBUF_PACKET" [.name "pd", .name l.headerId, .name l.fieldId, .name x]

theorem lex_blank (hx : Label x) (size : Nat) :
    lex ("uint8_t " ++ (x ++ ("[" ++ (toString size ++ "];")))).toList =
      [.word "uint8_t".toList, .word x.toList, .one '[', .word (toString size).toList, .one ']',
        .one ';'] := by
  have huint : lex "uint8_t ".toList = [.word "uint8_t".toList] := by decide
  have hopen : lex "[".toList = [.one '['] := by decide
  have hclose : lex "];".toList = [.one ']', .one ';'] := by decide
  rw [lex_mark_word hx.toIsWord (by decide) (starts_append (by decide)),
    lex_mark_word (numeral_toString size).toIsWord (by decide) (by decide), huint, hopen, hclose]
  rfl

theorem extractPacket_eq (l : PacketField) (x : String) :
    extractPacket l l.fieldId x = "EXTRACT_BYTEBUF_PACKET" ++ ("(" ++
      ("pd" ++ ", " ++ (l.headerId ++ ", " ++ (l.fieldId ++ ", " ++ x)) ++ ");")) := by
  unfold extractPacket
  simp [← String.toList_inj]

theorem isFlat_extractPacket (hx : Label x) (hh : Label l.headerId) (hf : Label l.fieldId) :
    isFlat (extractPacket l l.fieldId x) = true := by
  unfold extractPacket
  simp +decide [isFlat_of_word hx.chars, isFlat_of_word hh.chars, isFlat_of_word hf.chars]

theorem lex_extractPacket (hx : Label x) (hh : Label l.headerId) (hf : Label l.fieldId) :
    ∃ ts, Args [.name "pd", .name l.headerId, .name l.fieldId, .name x] ts ∧
      lex (extractPacket l l.fieldId x).toList = .word "EXTRACT_BYTEBUF_PACKET".toList ::
        .one '(' :: (ts ++ [.one ')', .one ';']) := by
  have hcomma : Symbol ", " [.one ','] := by decide
  have hpd : Label "pd" := by decide
  have hextract : IsWord "EXTRACT_BYTEBUF_PACKET" := by decide
  have hclose : lex ");".toList = [.one ')', .one ';'] := by decide
  have hargs := ((hx.operand.arguments.cons hcomma hf.operand).cons hcomma hh.operand).cons hcomma
    hpd.operand
  refine ⟨_, hargs.spells, ?_⟩
  rw [extractPacket_eq, lex_word_append hextract (starts_append (by decide)),
    hargs.lex_between (by decide) (by decide), lex_open, hclose]
  rfl

theorem items_field (size : Nat) (hx : Label x) (hh : Label l.headerId) (hf : Label l.fieldId) :
    items ((Content.field size l).text x) =
      some [.array x (some size) none, .stmt (extractCall l x)] := by
  have hextract : IsName "EXTRACT_BYTEBUF_PACKET" := ⟨by decide, by decide⟩
  have htext : (Content.field size l).text x =
      "uint8_t " ++ (x ++ ("[" ++ (toString size ++ "];"))) ++ "\n" ++
        extractPacket l l.fieldId x := by
    simp [Content.text, packetBuffer, ← String.toList_inj]
  have hflat : isFlat ("uint8_t " ++ (x ++ ("[" ++ (toString size ++ "];")))) = true := by
    simp +decide [isFlat_of_word hx.chars]
  obtain ⟨ts, hts, hcall⟩ := lex_extractPacket hx hh hf
  have htokens := tokens_lines hflat (extractPacket l l.fieldId x)
  rw [← htext, tokens_of_flat (isFlat_extractPacket hx hh hf), lex_blank hx, hcall] at htokens
  exact items_pair htokens (readItem_blank (numeral_toString size) x _)
    (readItem_call hts hextract (by decide) [])

theorem lex_braces {ns : List Nat} (h : List.Forall₂ Numeral texts ns) :
    lex (Literal.braced texts).toList =
      .one '\x7b' :: lex (String.intercalate ", " texts ++ "\x7d").toList := by
  cases h with
  | nil => decide
  | @cons text _ texts _ hx hs =>
    have hopen : lex "\x7b".toList = [.one '\x7b'] := by decide
    have hfirst : starts isEdge (String.intercalate ", " (text :: texts)) = true := by
      cases hs with
      | nil => simpa using hx.solid.first
      | cons hy hs =>
        rw [String.intercalate_cons_cons, String.append_assoc]
        exact starts_append hx.solid.first
    rw [Literal.braced, String.append_assoc, lex_append_of_ends (p := isMark) (q := isEdge)
      (by decide) (starts_append hfirst) fun _ _ hc hd => (apart_of_isMark hc hd).1, hopen]
    rfl

/-- An initializer up to the end of its declaration. -/
theorem lex_braced {ns : List Nat} (h : List.Forall₂ Numeral texts ns) :
    lex ("] = " ++ (Literal.braced texts ++ ";")).toList = .one ']' :: .one '=' :: .one '\x7b' ::
      (lex (String.intercalate ", " texts ++ "\x7d").toList ++ [.one ';']) := by
  have hassign : lex "] = ".toList = [.one ']', .one '='] := by decide
  have hend : lex ";".toList = [.one ';'] := by decide
  have hclose : ends (· == '\x7d') (Literal.braced texts) = true := ends_append (by decide)
  rw [lex_blank_append (by decide), lex_append_of_ends (q := (· == ';')) hclose (by decide),
    lex_braces h, hassign, hend]
  · rfl
  · intro c d hc hd
    rw [beq_iff_eq.1 hc, beq_iff_eq.1 hd]
    decide

theorem isFlat_braced {ns : List Nat} (h : List.Forall₂ Numeral texts ns) :
    isFlat (Literal.braced texts) = true := by
  have hitems : isFlat (String.intercalate ", " texts) = true := by
    have hflat := h.imp fun _ _ hx => And.intro (isFlat_of_word hx.chars) hx
    exact isFlat_intercalate (by decide) ((List.forall₂_and_left _ _).1 hflat).1
  simp +decide [Literal.braced, hitems]

/-- What stands between the brackets of an array. -/
def sizeText (sized : Bool) (bytes : List UInt8) : String :=
  if sized then toString bytes.length else ""

theorem readSize_brackets (sized : Bool) (bytes : List UInt8) {rest : String} {ts : List Token}
    (h : lex ("] = " ++ rest).toList = .one ']' :: ts) :
    ∃ us, lex ("[" ++ (sizeText sized bytes ++ ("] = " ++ rest))).toList = .one '[' :: us ∧
      readSize us = some (if sized then some bytes.length else none, ts) := by
  have hopen : lex "[".toList = [.one '['] := by decide
  cases sized with
  | false =>
    refine ⟨.one ']' :: ts, ?_, rfl⟩
    show lex ("[" ++ ("" ++ _)).toList = _
    rw [String.empty_append, lex_append_of_ends (p := (· == '[')) (q := (· == ']')) (by decide)
      (starts_append (by decide)), hopen, h]
    · rfl
    · intro c d hc hd
      rw [beq_iff_eq.1 hc, beq_iff_eq.1 hd]
      decide
  | true =>
    have hsize := numeral_toString bytes.length
    refine ⟨.word (toString bytes.length).toList :: .one ']' :: ts, ?_, ?_⟩
    · show lex ("[" ++ (toString bytes.length ++ _)).toList = _
      rw [lex_mark_word hsize.toIsWord (by decide) (starts_append (by decide)), hopen, h]
      rfl
    · simp only [readSize, hsize.number, Option.map_some, if_true]

theorem items_constant (sized : Bool) {bytes : List UInt8} (hx : Label x)
    (h : List.Forall₂ Numeral texts (bytes.map UInt8.toNat)) :
    items ((Content.constant sized texts bytes).text x) =
      some [.array x (if sized then some bytes.length else none)
        (some (bytes.map UInt8.toNat))] := by
  have hsize := numeral_toString bytes.length
  have htext : (Content.constant sized texts bytes).text x = "uint8_t " ++ (x ++ ("[" ++
      (sizeText sized bytes ++ ("] = " ++ (Literal.braced texts ++ ";"))))) := by
    cases sized with
    | false | true => simp [Content.text, sizeText, ← String.toList_inj]
  have hflat : isFlat ((Content.constant sized texts bytes).text x) = true := by
    have hcount : isFlat (sizeText sized bytes) = true := by
      cases sized with
      | false => rfl
      | true => exact isFlat_of_word hsize.chars
    simp +decide [htext, hcount, isFlat_braced h, isFlat_of_word hx.chars]
  have huint : lex "uint8_t ".toList = [.word "uint8_t".toList] := by decide
  have hnumbers := readNumbers_eq h [.one ';']
  obtain ⟨ts, hts, hread⟩ := readSize_brackets sized bytes (lex_braced h)
  have htokens : tokens ((Content.constant sized texts bytes).text x) =
      .word "uint8_t".toList :: .word x.toList :: .one '[' :: ts := by
    rw [tokens_of_flat hflat, htext,
      lex_mark_word hx.toIsWord (by decide) (starts_append (by decide)), huint, hts]
    rfl
  exact items_single htokens (readItem_array hread hnumbers x)

end Reading

/-! ### Running the declarations -/

section Running

variable {rt : Runtime} {m : Machine} {x : String}

/-- One variable is new, and everything else is as it was. -/
structure Adds (m : Machine) (x : String) (slot : Slot) (m' : Machine) : Prop where
  calls : m'.calls = m.calls
  lookup : ∀ y, m'.vars.lookup y = if y = x then some slot else m.vars.lookup y

theorem adds_cons (m : Machine) (x : String) (slot : Slot) :
    Adds m x slot { m with vars := (x, slot) :: m.vars } where
  calls := rfl
  lookup y := by
    rw [List.lookup_cons]
    by_cases h : y = x
    · simp [h]
    · rw [if_neg h, beq_eq_false_iff_ne.2 h]

theorem Adds.isFree {y : String} {slot : Slot} {m' : Machine} (h : Adds m x slot m')
    (hy : m.isFree y = true) (hne : y ≠ x) : m'.isFree y = true := by
  rwa [Machine.isFree, h.lookup, if_neg hne]

theorem Adds.trans {a b : Slot} {m' m'' : Machine} (h : Adds m x a m') (k : Adds m' x b m'') :
    Adds m x b m'' where
  calls := k.calls.trans h.calls
  lookup y := by
    rw [k.lookup, h.lookup]
    split <;> rfl

theorem declare_of_isFree (h : m.isFree x = true) (slot : Slot) :
    m.declare x slot = some { m with vars := (x, slot) :: m.vars } := if_pos h

theorem runPiece_content {c : Content} {slot : Slot} (hc : c.Plain) (hx : Label x)
    (hfree : m.isFree x = true) (hread : ∀ y ∈ c.mentions, m.isFree y = true ∧ y ≠ x)
    (hslot : c.slot rt = some slot) :
    ∃ m', runPiece rt m (c.text x) = some m' ∧ Adds m x slot m' := by
  cases c with
  | value width l =>
    obtain ⟨hw, hh, hf⟩ := hc
    obtain ⟨v, hv, rfl⟩ : ∃ v, rt.number l.headerId l.fieldId = some v ∧
        Slot.scalar ((Content.scalarType width).wrap v) = slot := by
      simpa [Content.slot] using hslot
    have heval : (Place.packetField l.headerId l.fieldId).term.eval (m.store rt) = some v := by
      show (if _ then _ else _) = _
      rw [if_pos ⟨(hread _ (by simp [Content.mentions])).1,
        (hread _ (by simp [Content.mentions])).1⟩, hv]
    refine ⟨_, ?_, adds_cons m x _⟩
    simp [runPiece, items_value hw hx hh hf, Item.exec, heval, declare_of_isFree hfree]
  | field size l =>
    obtain ⟨hh, hf⟩ := hc
    obtain ⟨bs, hbs, rfl, rfl⟩ : ∃ bs, rt.bytes l.headerId l.fieldId = some bs ∧
        bs.length = size ∧ Slot.bytes bs = slot := by
      simpa [Content.slot, Option.bind_eq_some_iff] using hslot
    obtain ⟨hheader, hne⟩ := hread l.headerId (by simp [Content.mentions])
    obtain ⟨hfield, hne'⟩ := hread l.fieldId (by simp [Content.mentions])
    have hblank := adds_cons m x (.blank bs.length)
    refine ⟨_, ?_, hblank.trans (adds_cons _ x (.bytes bs))⟩
    have hextract : Stmt.exec rt (extractCall l x)
        { m with vars := (x, .blank bs.length) :: m.vars } =
          some ⟨(x, .bytes bs) :: (x, .blank bs.length) :: m.vars, m.calls⟩ := by
      show Machine.extract rt l.headerId l.fieldId x _ = _
      rw [Machine.extract, if_pos ⟨hblank.isFree hheader hne, hblank.isFree hfield hne'⟩, hbs]
      simp
    simp [runPiece, items_field bs.length hx hh hf, Item.exec, declare_of_isFree hfree, hextract]
  | constant sized texts bytes =>
    cases hslot
    refine ⟨_, ?_, adds_cons m x _⟩
    have hbytes : (bytes.map UInt8.toNat).map UInt8.ofNat = bytes := by
      simp [Function.comp_def]
    cases sized <;>
      simp [runPiece, items_constant _ hx hc, Item.exec, hbytes, declare_of_isFree hfree]

end Running

/-! ### Running all of them -/

/-- A declaration in front of a statement. -/
structure Hoisted where
  name : String
  content : Content

namespace Hoisted

def text (h : Hoisted) : String := h.content.text h.name

/-- The machine has the variables as they are declared. -/
def Holds (rt : Runtime) (hs : List Hoisted) (m : Machine) : Prop :=
  ∀ h ∈ hs, ∃ slot, h.content.slot rt = some slot ∧ m.vars.lookup h.name = some slot

/-- Each name is declared once, and none of them is read as something else. -/
structure Apart (hs : List Hoisted) : Prop where
  nodup : (hs.map Hoisted.name).Nodup
  unread : ∀ h ∈ hs, ∀ y ∈ h.content.mentions, y ∉ hs.map Hoisted.name

/-- The declarations can be run where their names are free, and touch no other name. -/
theorem run_from {rt : Runtime} {hs : List Hoisted} (hplain : ∀ h ∈ hs, h.content.Plain)
    (hlabel : ∀ h ∈ hs, Label h.name) (hapart : Apart hs)
    (hslot : ∀ h ∈ hs, ∃ slot, h.content.slot rt = some slot) (m : Machine)
    (hfree : ∀ h ∈ hs, m.isFree h.name = true ∧ ∀ y ∈ h.content.mentions, m.isFree y = true) :
    ∃ m', runPieces rt m (hs.map Hoisted.text) = some m' ∧ m'.calls = m.calls ∧ Holds rt hs m' ∧
      ∀ y, y ∉ hs.map Hoisted.name → m'.vars.lookup y = m.vars.lookup y := by
  induction hs generalizing m with
  | nil => exact ⟨m, rfl, rfl, nofun, fun _ _ => rfl⟩
  | cons h hs ih =>
    obtain ⟨hnot, hnodup⟩ := List.nodup_cons.1 hapart.nodup
    obtain ⟨slot, hsome⟩ := hslot h (.head hs)
    have hread : ∀ y ∈ h.content.mentions, m.isFree y = true ∧ y ≠ h.name := fun y hy =>
      ⟨(hfree h (.head hs)).2 y hy,
        fun heq => hapart.unread h (.head hs) y hy (by simp [heq])⟩
    obtain ⟨m₁, hrun, hadds⟩ := runPiece_content (hplain h (.head hs))
      (hlabel h (.head hs)) (hfree h (.head hs)).1 hread hsome
    have hfree₁ : ∀ k ∈ hs, m₁.isFree k.name = true ∧
        ∀ y ∈ k.content.mentions, m₁.isFree y = true := by
      intro k hk
      have hne : k.name ≠ h.name := fun heq => hnot (heq ▸ List.mem_map_of_mem hk)
      refine ⟨hadds.isFree (hfree k (.tail h hk)).1 hne, fun y hy => ?_⟩
      refine hadds.isFree ((hfree k (.tail h hk)).2 y hy) fun heq => ?_
      exact hapart.unread k (.tail h hk) y hy (by simp [heq])
    have hapart₁ : Apart hs := ⟨hnodup, fun k hk y hy hmem =>
      hapart.unread k (.tail h hk) y hy (.tail _ hmem)⟩
    obtain ⟨m', hrun', hcalls, hholds, hrest⟩ := ih (fun k hk => hplain k (.tail h hk))
      (fun k hk => hlabel k (.tail h hk)) hapart₁ (fun k hk => hslot k (.tail h hk)) m₁ hfree₁
    refine ⟨m', ?_, hcalls.trans hadds.calls, ?_, fun y hy => ?_⟩
    · rw [List.map_cons, runPieces, List.foldlM_cons]
      show (runPiece rt m (h.content.text h.name)).bind _ = _
      rw [hrun]
      exact hrun'
    · intro k hk
      rcases List.mem_cons.1 hk with rfl | hk
      · exact ⟨slot, hsome, by rw [hrest _ hnot, hadds.lookup, if_pos rfl]⟩
      · exact hholds k hk
    · simp only [List.map_cons, List.mem_cons, not_or] at hy
      rw [hrest y hy.2, hadds.lookup, if_neg hy.1]

/-- From the start, the machine ends up with the variables that are declared and no others. -/
theorem run_start {rt : Runtime} {hs : List Hoisted} (hplain : ∀ h ∈ hs, h.content.Plain)
    (hlabel : ∀ h ∈ hs, Label h.name) (hapart : Apart hs)
    (hslot : ∀ h ∈ hs, ∃ slot, h.content.slot rt = some slot) :
    ∃ m, runPieces rt .start (hs.map Hoisted.text) = some m ∧ m.calls = [] ∧ Holds rt hs m ∧
      ∀ y, y ∉ hs.map Hoisted.name → m.isFree y = true := by
  obtain ⟨m, hrun, hcalls, hholds, hrest⟩ :=
    run_from hplain hlabel hapart hslot .start fun _ _ => ⟨rfl, fun _ _ => rfl⟩
  refine ⟨m, hrun, hcalls, hholds, fun y hy => ?_⟩
  rw [Machine.isFree, hrest y hy]
  rfl

end Hoisted

end PacketC
