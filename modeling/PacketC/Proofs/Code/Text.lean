import PacketC.Proofs.Code.Grammar
import PacketC.Proofs.Text.Digits
import PacketC.Target.Literal

/-! Texts of operands. Tokens do not run together where one of two neighbours is a parenthesis or
where a word meets a mark, so a text that is put together from operands and marks has the tokens
of its pieces. An `Operand` can stand anywhere in an expression, and each of the shapes that the
generated code has makes an operand of operands. -/

namespace PacketC.Code

/-! ### Pieces of a text -/

@[simp]
theorem toString_self (s : String) : toString s = s := rfl

/-- The characters stay in different tokens. -/
def apart (c d : Char) : Bool := !(isWordChar c && isWordChar d) && !joins c d

theorem extend_append (c : Char) {ts : List Token} (us : List Token) (h : ts ≠ []) :
    extend c (ts ++ us) = extend c ts ++ us := by
  match ts, h with
  | .word w :: ts, _ => rfl
  | .one d :: ts, _ => rfl
  | .two d e :: ts, _ => rfl

variable {c : Char} {p : Char → Bool} {a b x : String} {e : Term} {ty : IntType}

theorem ne_blank_of_isWordChar (h : isWordChar c = true) : c ≠ ' ' := by
  rintro rfl
  revert h
  decide

theorem lex_ne_nil (cs : List Char) (h : isWordChar c = true) : lex (c :: cs) ≠ [] := by
  have hblank := ne_blank_of_isWordChar h
  cases cs with
  | nil => simp [lex, hblank, h]
  | cons d cs =>
    rw [lex, if_neg hblank, if_pos h]
    split
    · unfold extend
      split <;> exact List.cons_ne_nil _ _
    · exact List.cons_ne_nil _ _

theorem lex_append (a b : List Char)
    (h : ∀ c ∈ a.getLast?, ∀ d ∈ b.head?, apart c d = true) : lex (a ++ b) = lex a ++ lex b := by
  -- the induction follows the cuts in `a`, of which only the last character meets `b`
  fun_induction lex a with
  | case1 => rfl
  | case2 => cases b <;> simp [lex]
  | case3 c hblank hword =>
    match b with
    | [] => simp [lex, hblank, hword]
    | d :: b =>
      have hd : isWordChar d = false := by
        have := h c rfl d rfl
        simp_all [apart]
      simp [lex, hblank, hword, hd]
  | case4 c hblank hword =>
    match b with
    | [] => simp [lex, hblank, hword]
    | d :: b =>
      have hd : joins c d = false := by
        have := h c rfl d rfl
        simp_all [apart]
      simp [lex, hblank, hword, hd]
  | case5 d rest ih =>
    have hrest := ih (by simpa using h)
    simpa [lex] using hrest
  | case6 c d rest hblank hc hd ih =>
    have hrest := ih (by simpa using h)
    rw [← extend_append c _ (lex_ne_nil rest hd), ← hrest]
    simp [lex, hblank, hc, hd]
  | case7 c d rest hblank hc hd ih =>
    have hrest := ih (by simpa using h)
    simpa [lex, hblank, hc, hd] using hrest
  | case8 c d rest hblank hc hjoins ih =>
    -- two characters are taken at once, and nothing of `a` may be left
    have hrest := ih fun x hx => by
      cases rest with
      | nil => cases hx
      | cons r rest => exact h x (by simpa using hx)
    simpa [lex, hblank, hc, hjoins] using hrest
  | case9 c d rest hblank hc hjoins ih =>
    have hrest := ih (by simpa using h)
    simpa [lex, hblank, hc, hjoins] using hrest

theorem lex_word {w : List Char} (h : w ≠ []) (hw : ∀ c ∈ w, isWordChar c = true) :
    lex w = [.word w] := by
  induction w with
  | nil => exact absurd rfl h
  | cons c w ih =>
    have hc : isWordChar c = true := hw c (by simp)
    have hblank := ne_blank_of_isWordChar hc
    cases w with
    | nil => simp [lex, hblank, hc]
    | cons d w =>
      have hrest := ih (by simp) fun x hx => hw x (List.mem_cons_of_mem _ hx)
      simp [lex, hblank, hc, hw d (by simp), hrest, extend]

/-- A character that an operand can begin or end with. -/
def isEdge (c : Char) : Bool := isWordChar c || c == '(' || c == ')'

def isMark (c : Char) : Bool := !isWordChar c

theorem not_joins_of_isEdge {d : Char} (h : isEdge c = true ∨ isEdge d = true) :
    joins c d = false := by
  rw [Bool.eq_false_iff]
  intro hj
  simp only [joins, List.contains_iff_mem, List.mem_cons, Prod.mk.injEq, List.not_mem_nil,
    or_false] at hj
  rcases hj with ⟨rfl, rfl⟩ | ⟨rfl, rfl⟩ | ⟨rfl, rfl⟩ | ⟨rfl, rfl⟩ | ⟨rfl, rfl⟩ | ⟨rfl, rfl⟩ |
    ⟨rfl, rfl⟩ | ⟨rfl, rfl⟩ | ⟨rfl, rfl⟩ <;> revert h <;> decide

theorem apart_of_isMark {d : Char} (hc : isMark c = true) (hd : isEdge d = true) :
    apart c d = true ∧ apart d c = true := by
  simp only [isMark, Bool.not_eq_true'] at hc
  simp [apart, hc, not_joins_of_isEdge (.inl hd), not_joins_of_isEdge (.inr hd)]

/-! ### Operands -/

def starts (p : Char → Bool) (text : String) : Bool := text.toList.head?.any p

def ends (p : Char → Bool) (text : String) : Bool := text.toList.getLast?.any p

theorem starts_append (h : starts p a = true) : starts p (a ++ b) = true := by
  unfold starts at *
  cases ha : a.toList <;> simp_all

theorem ends_append (h : ends p b = true) : ends p (a ++ b) = true := by
  unfold ends at *
  cases hb : b.toList.getLast? <;> simp_all

theorem ne_of_starts {q : Char → Bool} (ha : starts p a = true) (hb : starts q b = true)
    (h : ∀ c, p c = true → q c = false) : a ≠ b := by
  rintro rfl
  unfold starts at ha hb
  cases hc : a.toList.head? with
  | none => simp [hc] at ha
  | some c =>
    rw [hc, Option.any_some] at ha hb
    exact Bool.false_ne_true ((h c ha).symm.trans hb)

/-- A text is cut in one way where the characters of one kind end. -/
theorem append_inj_of_all {y : String} (ha : a.toList.all p = true) (hb : b.toList.all p = true)
    (hx : starts (fun c => !p c) x = true) (hy : starts (fun c => !p c) y = true)
    (h : a ++ x = b ++ y) : a = b ∧ x = y := by
  have hcut : ∀ {a x : String}, a.toList.all p = true → starts (fun c => !p c) x = true →
      (a ++ x).toList.takeWhile p = a.toList := by
    intro a x ha hx
    rw [String.toList_append, List.takeWhile_append_of_pos (List.all_eq_true.1 ha)]
    unfold starts at hx
    cases hx' : x.toList <;> simp_all
  obtain rfl : a = b := by rw [← String.toList_inj, ← hcut ha hx, h, hcut hb hy]
  exact ⟨rfl, (String.append_right_inj a).1 h⟩

theorem append_inj_of_all_last {y : String} (ha : a.toList.all p = true)
    (hb : b.toList.all p = true) (hx : ends (fun c => !p c) x = true)
    (hy : ends (fun c => !p c) y = true) (h : x ++ a = y ++ b) : a = b := by
  have hcut : ∀ {a x : String}, a.toList.all p = true → ends (fun c => !p c) x = true →
      (x ++ a).toList.reverse.takeWhile p = a.toList.reverse := by
    intro a x ha hx
    rw [String.toList_append, List.reverse_append, List.takeWhile_append_of_pos (by simpa using ha)]
    rw [ends, ← List.head?_reverse] at hx
    cases hx' : x.toList.reverse <;> simp_all
  rw [← String.toList_inj, ← List.reverse_inj, ← hcut ha hx, h, hcut hb hy]

theorem lex_append_of_ends {q : Char → Bool} (ha : ends p a = true) (hb : starts q b = true)
    (h : ∀ c d, p c = true → q d = true → apart c d = true) :
    lex (a ++ b).toList = lex a.toList ++ lex b.toList := by
  rw [String.toList_append]
  refine lex_append _ _ fun c hc d hd => h c d ?_ ?_
  · simpa [ends, Option.mem_def.1 hc] using ha
  · simpa [starts, Option.mem_def.1 hd] using hb

/-- A piece of text without words at its ends. -/
structure Symbol (text : String) (ts : List Token) : Prop where
  lex_eq : lex text.toList = ts
  first : starts isMark text = true
  last : ends isMark text = true

instance (text : String) (ts : List Token) : Decidable (Symbol text ts) :=
  decidable_of_iff
    (lex text.toList = ts ∧ starts isMark text = true ∧ ends isMark text = true)
    ⟨fun ⟨hl, hs, he⟩ => ⟨hl, hs, he⟩, fun h => ⟨h.lex_eq, h.first, h.last⟩⟩

/-- A piece of text that no mark next to it runs into. -/
structure Solid (text : String) : Prop where
  first : starts isEdge text = true
  last : ends isEdge text = true

/-- A text that spells a term wherever a term can stand. -/
structure Operand (text : String) (e : Term) : Prop extends Solid text where
  spells : Spells 11 e (lex text.toList)

/-- A text that spells a term next to operators that bind less tightly than `n`. What it means
inside a larger text depends on its neighbours. -/
structure Clause (n : Nat) (text : String) (e : Term) : Prop extends Solid text where
  spells : Spells n e (lex text.toList)

section Shapes

variable {m n : Nat} {a b x l r sym : String} {e e' : Term} {ts us : List Token}

theorem Solid.lex_after (hx : Solid x) (ha : ends isMark a = true) :
    lex (a ++ x).toList = lex a.toList ++ lex x.toList :=
  lex_append_of_ends ha hx.first fun _ _ hc hd => (apart_of_isMark hc hd).1

theorem Solid.lex_before (hx : Solid x) (hb : starts isMark b = true) :
    lex (x ++ b).toList = lex x.toList ++ lex b.toList :=
  lex_append_of_ends hx.last hb fun _ _ hc hd => (apart_of_isMark hd hc).2

/-- What is solid is cut out of the text between two marks. -/
theorem Solid.lex_between (hx : Solid x) (ha : ends isMark a = true) (hb : starts isMark b = true) :
    lex (a ++ (x ++ b)).toList = lex a.toList ++ (lex x.toList ++ lex b.toList) := by
  rw [← hx.lex_before hb]
  exact lex_append_of_ends ha (starts_append hx.first) fun _ _ hc hd =>
    (apart_of_isMark hc hd).1

theorem lex_open : lex "(".toList = [.one '('] := by decide

theorem lex_close : lex ")".toList = [.one ')'] := by decide

/-- What is read between parentheses. -/
theorem operand_of_parens (h : Spells 0 e ts)
    (hlex : lex ("(" ++ (a ++ ")")).toList = .one '(' :: (ts ++ [.one ')'])) :
    Operand ("(" ++ a ++ ")") e where
  spells := by
    rw [String.append_assoc, hlex]
    exact .primary (.paren h)
  first := starts_append (starts_append (by decide))
  last := ends_append (by decide)

theorem Clause.mono (h : Clause n x e) (hm : m ≤ n) : Clause m x e := ⟨h.toSolid, h.spells.mono hm⟩

theorem Operand.clause (h : Operand x e) (hn : n ≤ 11) : Clause n x e :=
  ⟨h.toSolid, h.spells.mono hn⟩

theorem Clause.paren (hx : Clause n x e) : Operand ("(" ++ x ++ ")") e := by
  refine operand_of_parens (hx.spells.mono (Nat.zero_le _)) ?_
  rw [hx.lex_between (by decide) (by decide), lex_open, lex_close, List.singleton_append]

theorem Operand.paren (hx : Operand x e) : Operand ("(" ++ x ++ ")") e :=
  (hx.clause (Nat.zero_le _)).paren

theorem Operand.unary {op : UnOp} (hsym : Symbol sym [.one '(', op.token])
    (hfirst : starts isEdge sym = true) (hx : Operand x e) :
    Operand (sym ++ x ++ ")") (.unary op e) where
  first := starts_append (starts_append hfirst)
  last := ends_append (by decide)
  spells := by
    rw [String.append_assoc, hx.lex_between hsym.last (by decide), hsym.lex_eq, lex_close]
    exact .primary (.paren ((Spells.unary op hx.spells).mono (Nat.zero_le _)))

/-- An operator between two clauses. -/
theorem Clause.apply {op : Op} (hsym : Symbol sym [op.token]) (hl : Clause op.prec l e)
    (hr : Clause (op.prec + 1) r e') : Clause op.prec (l ++ sym ++ r) (.binary op e e') where
  first := starts_append (starts_append hl.first)
  last := ends_append hr.last
  spells := by
    rw [String.append_assoc, hl.lex_before (starts_append hsym.first), hr.lex_after hsym.last,
      hsym.lex_eq]
    exact .binary op hl.spells hr.spells

theorem Operand.binary {op : Op} (hsym : Symbol sym [op.token]) (hl : Operand l e)
    (hr : Operand r e') : Operand ("(" ++ l ++ sym ++ r ++ ")") (.binary op e e') := by
  have hprec := op.prec_le
  have hclause := (hl.clause (by omega)).apply hsym (hr.clause (by omega))
  simpa only [String.append_assoc] using hclause.paren

theorem Clause.cond {c t f query colon : String} {ec et ef : Term}
    (hquery : Symbol query [.one '?']) (hcolon : Symbol colon [.one ':']) (hc : Clause 1 c ec)
    (ht : Clause 0 t et) (hf : Clause 0 f ef) :
    Operand ("(" ++ c ++ query ++ t ++ colon ++ f ++ ")") (.cond ec et ef) := by
  have hspells := Spells.cond hc.spells ht.spells hf.spells
  have htext : "(" ++ c ++ query ++ t ++ colon ++ f =
      "(" ++ (c ++ (query ++ (t ++ (colon ++ f)))) := by simp only [String.append_assoc]
  rw [htext]
  refine operand_of_parens hspells ?_
  simp only [String.append_assoc]
  rw [hc.lex_between (by decide) (starts_append hquery.first),
    ht.lex_between hquery.last (starts_append hcolon.first),
    hf.lex_between hcolon.last (by decide), hquery.lex_eq, hcolon.lex_eq, lex_open, lex_close]
  simp

theorem Operand.cond {c t f query colon : String} {ec et ef : Term}
    (hquery : Symbol query [.one '?']) (hcolon : Symbol colon [.one ':']) (hc : Operand c ec)
    (ht : Operand t et) (hf : Operand f ef) :
    Operand ("(" ++ c ++ query ++ t ++ colon ++ f ++ ")") (.cond ec et ef) :=
  Clause.cond hquery hcolon (hc.clause (by decide)) (ht.clause (by decide)) (hf.clause (by decide))

theorem Clause.evaluate_eq (h : Clause n x e) (σ : Store) : evaluate σ x = e.eval σ := by
  rw [evaluate, h.spells.parse_eq, Option.bind_some]

theorem Operand.evaluate_eq (h : Operand x e) (σ : Store) : evaluate σ x = e.eval σ :=
  (h.clause (Nat.le_refl _)).evaluate_eq σ

end Shapes

/-! ### Words -/

/-- A word from end to end. -/
structure IsWord (text : String) : Prop where
  nonempty : text ≠ ""
  chars : text.toList.all isWordChar = true

instance (x : String) : Decidable (IsWord x) :=
  decidable_of_iff (x ≠ "" ∧ x.toList.all isWordChar = true)
    ⟨fun h => ⟨h.1, h.2⟩, fun h => ⟨h.nonempty, h.chars⟩⟩

theorem IsWord.append (ha : IsWord a) (hb : b.toList.all isWordChar = true) : IsWord (a ++ b) where
  nonempty := by simp [ha.nonempty]
  chars := by rw [String.toList_append, List.all_append, ha.chars, hb, Bool.and_self]

theorem IsWord.solid (h : IsWord x) : Solid x := by
  have hne : x.toList ≠ [] := by simp [h.nonempty]
  have hedge : ∀ c ∈ x.toList, isEdge c = true := fun c hc => by
    simp [isEdge, List.all_eq_true.1 h.chars c hc]
  constructor
  · rw [starts, List.head?_eq_some_head hne]
    exact hedge _ (List.head_mem hne)
  · rw [ends, List.getLast?_eq_some_getLast hne]
    exact hedge _ (List.getLast_mem hne)

theorem IsWord.lex_eq (h : IsWord x) : lex x.toList = [.word x.toList] :=
  lex_word (by simp [h.nonempty]) (List.all_eq_true.1 h.chars)

theorem IsWord.operand (h : IsWord x) (hp : Primary e [.word x.toList]) : Operand x e :=
  ⟨h.solid, h.lex_eq ▸ .primary hp⟩

/-- A word that is a name in the store. -/
structure Label (x : String) : Prop extends IsWord x, IsName x

instance (x : String) : Decidable (Label x) :=
  decidable_of_iff (IsWord x ∧ x.toList.head?.any Char.isDigit = false ∧ IntType.ofName? x = none)
    ⟨fun ⟨hw, hd, ht⟩ => ⟨hw, ⟨hd, ht⟩⟩, fun h => ⟨h.toIsWord, h.notNumber, h.notType⟩⟩

theorem Label.operand (h : Label x) : Operand x (.name x) :=
  h.toIsWord.operand (.name h.toIsName)

theorem operand_bool (b : Bool) :
    Operand (if b then "true" else "false") (.name (if b then "true" else "false")) :=
  Label.operand (by cases b <;> decide)

/-- A text with a member of which it can go on. -/
structure Reference (text : String) (e : Term) : Prop extends Solid text where
  primary : Primary e (lex text.toList)

theorem Reference.operand (h : Reference x e) : Operand x e := ⟨h.toSolid, .primary h.primary⟩

theorem Label.reference (h : Label x) : Reference x (.name x) :=
  ⟨h.solid, h.lex_eq ▸ .name h.toIsName⟩

theorem Reference.select {sym field : String} {t : Token} {e' : Term} (h : Reference x e)
    (hsym : Symbol sym [t]) (hfield : IsWord field)
    (h' : Primary e' (lex x.toList ++ [t, .word field.toList])) :
    Reference (x ++ sym ++ field) e' where
  first := starts_append (starts_append h.first)
  last := ends_append hfield.solid.last
  primary := by
    rwa [String.append_assoc, h.lex_before (starts_append hsym.first),
      hfield.solid.lex_after hsym.last, hsym.lex_eq, hfield.lex_eq]

theorem Reference.arrow (h : Reference x e) {field : String} (hfield : IsWord field) :
    Reference (x ++ "->" ++ field) (.arrow e field) :=
  h.select (by decide : Symbol "->" [.two '-' '>']) hfield (.arrow h.primary field)

theorem Reference.dot (h : Reference x e) {field : String} (hfield : IsWord field) :
    Reference (x ++ "." ++ field) (.dot e field) :=
  h.select (by decide : Symbol "." [.one '.']) hfield (.dot h.primary field)

theorem operand_arrow {base : String} (hbase : Label base) (hx : IsWord x) :
    Operand (base ++ "->" ++ x) (.arrow (.name base) x) := (hbase.reference.arrow hx).operand

/-! ### Calls -/

/-- A text that spells the arguments of a call. -/
structure Arguments (text : String) (args : List Term) : Prop extends Solid text where
  spells : Args args (lex text.toList)

theorem Operand.arguments (h : Operand x e) : Arguments x [e] :=
  ⟨h.toSolid, .last (h.spells.mono (Nat.zero_le _))⟩

theorem Arguments.cons {rest comma : String} {args : List Term} (h : Arguments rest args)
    (hcomma : Symbol comma [.one ',']) (hx : Operand x e) :
    Arguments (x ++ comma ++ rest) (e :: args) where
  first := starts_append (starts_append hx.first)
  last := ends_append h.last
  spells := by
    rw [String.append_assoc, hx.lex_before (starts_append hcomma.first),
      h.lex_after hcomma.last, hcomma.lex_eq]
    exact .more (hx.spells.mono (Nat.zero_le _)) h.spells

theorem Arguments.call {f text : String} {args : List Term} (h : Arguments text args)
    (hf : Label f) : Operand (f ++ "(" ++ text ++ ")") (.call f args) where
  first := starts_append (starts_append (starts_append hf.solid.first))
  last := ends_append (by decide)
  spells := by
    simp only [String.append_assoc]
    rw [hf.solid.lex_before (starts_append (by decide)), h.lex_between (by decide) (by decide),
      hf.lex_eq, lex_open, lex_close]
    exact .primary (.call hf.toIsName h.spells)

/-! ### Numbers -/

section Numbers

variable {base : Nat}

theorem digit?_digitChar (hb : base ≤ 16) {d : Nat} (hd : d < base) :
    digit? base (Nat.digitChar d) = some d := by
  have hdigit : ∀ d : Fin 16, digit? 16 (Nat.digitChar d) = some d.val := by decide
  have h := hdigit ⟨d, by omega⟩
  simp only [digit?, Option.ite_none_right_eq_some, Option.some.injEq] at h ⊢
  exact ⟨⟨h.1.1, by omega⟩, h.2⟩

/-- What holds of each digit holds of all digits of a number. -/
theorem all_toDigits_of {p : Char → Bool} (hp : ∀ d : Fin 16, p (Nat.digitChar d) = true)
    (hb : 1 < base) (hb' : base ≤ 16) (n : Nat) : (Nat.toDigits base n).all p = true := by
  induction n using Nat.strongRecOn with
  | ind n ih =>
    rw [Nat.toDigits_eq_if hb]
    split
    next hlt => simpa using hp ⟨n, by omega⟩
    next hge =>
      have hmod : n % base < base := Nat.mod_lt _ (by omega)
      have hlast : p (Nat.digitChar (n % base)) = true := hp ⟨n % base, by omega⟩
      simp [ih (n / base) (Nat.div_lt_self (by omega) hb), hlast]

theorem all_toString {p : Char → Bool} (hp : ∀ d : Fin 16, p (Nat.digitChar d) = true) (n : Nat) :
    (toString n).toList.all p = true := by
  rw [Nat.toString_eq_ofList_toDigits, String.toList_ofList]
  exact all_toDigits_of hp (by decide) (by decide) n

theorem all_toDigits (hb : 1 < base) (hb' : base ≤ 16) (n : Nat) :
    (Nat.toDigits base n).all isWordChar = true := all_toDigits_of (by decide) hb hb' n

theorem digits?_toDigits (hb : 1 < base) (hb' : base ≤ 16) (n : Nat) :
    digits? base (Nat.toDigits base n) = some n := by
  rw [digits?, if_neg (by simp [Nat.toDigits_ne_nil])]
  induction n using Nat.strongRecOn with
  | ind n ih =>
    rw [Nat.toDigits_eq_if hb]
    split
    next hlt => simp [digit?_digitChar hb' hlt]
    next hge =>
      have hmod : n % base < base := Nat.mod_lt _ (by omega)
      rw [List.foldlM_append, ih (n / base) (Nat.div_lt_self (by omega) hb)]
      simp [digit?_digitChar hb' hmod, Nat.div_add_mod']

theorem number?_decimal (n : Nat) : number? (Nat.toDigits 10 n) = some n := by
  obtain ⟨d, ds, hds, hd, hzero⟩ := Text.head_toDigits n
  by_cases h : d = 0
  · obtain ⟨rfl, -⟩ := hzero h
    decide
  · -- a digit other than zero leaves only the last case
    have hne : Nat.digitChar d ≠ '0' := by
      have hdigit : ∀ d : Fin 10, d.val ≠ 0 → Nat.digitChar d ≠ '0' := by decide
      exact hdigit ⟨d, hd⟩ h
    rw [← digits?_toDigits (by decide : 1 < 10) (by decide) n, hds]
    unfold number?
    split
    · rename_i heq; exact absurd (List.cons.inj heq).1 hne
    · rename_i heq; exact absurd (List.cons.inj heq).1 hne
    · rename_i heq; exact absurd (List.cons.inj heq).1 hne
    · rfl

/-- A word that is a number. -/
structure Numeral (text : String) (n : Nat) : Prop extends IsWord text where
  start : starts Char.isDigit text = true
  number : number? text.toList = some n

theorem Numeral.operand {text : String} {n : Nat} (h : Numeral text n) : Operand text (.num n) :=
  h.toIsWord.operand (.num h.start h.number)

theorem numeral_decimal (n : Nat) : Numeral (Literal.digits 10 n) n := by
  have hlist : (Literal.digits 10 n).toList = Nat.toDigits 10 n := String.toList_ofList
  refine ⟨⟨fun h => ?_, hlist ▸ all_toDigits (by decide) (by decide) n⟩, ?_,
    hlist ▸ number?_decimal n⟩
  · rw [h] at hlist
    exact Nat.toDigits_ne_nil hlist.symm
  · obtain ⟨d, ds, hds, hd, -⟩ := Text.head_toDigits n
    simp [starts, hlist, hds, Nat.isDigit_digitChar, hd]

/-- A number with the mark of its base. -/
theorem numeral_marked {mark : String} (hmark : IsWord mark)
    (hdigit : starts Char.isDigit mark = true) (hb : 1 < base) (hb' : base ≤ 16)
    (hread : ∀ ds, number? (mark.toList ++ ds) = digits? base ds) (n : Nat) :
    Numeral (mark ++ Literal.digits base n) n := by
  have hlist : (Literal.digits base n).toList = Nat.toDigits base n := String.toList_ofList
  refine ⟨hmark.append (hlist ▸ all_toDigits hb hb' n), starts_append hdigit, ?_⟩
  rw [String.toList_append, hread, hlist, digits?_toDigits hb hb']

theorem numeral_hex (n : Nat) : Numeral (Literal.hex n) n :=
  numeral_marked (by decide) (by decide) (by decide) (by decide) (fun _ => rfl) n

theorem numeral_binary (n : Nat) : Numeral (Literal.binary n) n :=
  numeral_marked (by decide) (by decide) (by decide) (by decide) (fun _ => rfl) n

theorem numeral_inBase (base n : Nat) : Numeral (Literal.inBase base n) n := by
  unfold Literal.inBase
  split
  · exact numeral_hex n
  split
  · exact numeral_binary n
  · exact numeral_decimal n

theorem operand_decimal (n : Nat) : Operand (Literal.digits 10 n) (.num n) :=
  (numeral_decimal n).operand

theorem operand_inBase (base n : Nat) : Operand (Literal.inBase base n) (.num n) :=
  (numeral_inBase base n).operand

theorem operand_mask (width : Nat) : Operand (Literal.mask width) (.num (2 ^ width - 1)) :=
  (numeral_hex _).operand

end Numbers

/-! ### Identifiers -/

def keywords : List String :=
  ["auto", "break", "case", "char", "const", "continue", "default", "do", "double", "else", "enum",
    "extern", "float", "for", "goto", "if", "inline", "int", "long", "register", "restrict",
    "return", "short", "signed", "sizeof", "static", "struct", "switch", "typedef", "union",
    "unsigned", "void", "volatile", "while", "bool", "true", "false"]

def typeNames : List String :=
  ["uint8_t", "uint16_t", "uint32_t", "uint64_t", "int8_t", "int16_t", "int32_t", "int64_t"]

/-- A stem of names: a word that does not begin with a digit. -/
structure IsStem (stem : String) : Prop extends IsWord stem where
  start : starts Char.isDigit stem = false

theorem starts_append_of_isWord (h : IsWord a) (b : String) : starts p (a ++ b) = starts p a := by
  unfold starts
  cases ha : a.toList with
  | nil => exact absurd (String.toList_eq_nil_iff.1 ha) h.nonempty
  | cons c cs => simp [ha]

theorem IsStem.append {stem : String} (h : IsStem stem) (hx : x.toList.all isWordChar = true) :
    IsStem (stem ++ x) :=
  ⟨h.toIsWord.append hx, by rw [starts_append_of_isWord h.toIsWord]; exact h.start⟩

/-- A name that the target leaves to the program. -/
structure Identifier (x : String) : Prop extends IsWord x where
  start : starts Char.isDigit x = false
  notKeyword : x ∉ keywords
  notType : x ∉ typeNames

instance (x : String) : Decidable (Identifier x) :=
  decidable_of_iff (IsWord x ∧ starts Char.isDigit x = false ∧ x ∉ keywords ∧ x ∉ typeNames)
    ⟨fun ⟨hw, hs, hk, ht⟩ => ⟨hw, hs, hk, ht⟩,
      fun h => ⟨h.toIsWord, h.start, h.notKeyword, h.notType⟩⟩

theorem mem_typeNames_of_ofName? (h : IntType.ofName? x = some ty) : x ∈ typeNames := by
  unfold IntType.ofName? at h
  split at h
  · decide
  · decide
  · decide
  · decide
  · decide
  · decide
  · decide
  · decide
  · cases h

theorem isWord_of_ofName? (h : IntType.ofName? x = some ty) : IsWord x := by
  have hword : ∀ x ∈ typeNames, IsWord x := by decide
  exact hword x (mem_typeNames_of_ofName? h)

/-- A cast needs no parentheses around it; there may be a blank behind the type. -/
theorem operand_cast {type close : String} (hty : IntType.ofName? type = some ty)
    (hclose : close = ")" ∨ close = ") ") (hx : Operand x e) :
    Operand ("(" ++ type ++ close ++ x) (.cast ty e) := by
  have htype : ∀ x ∈ typeNames, starts Char.isDigit x = false ∧ ∀ close ∈ [")", ") "],
      Symbol ("(" ++ x ++ close) [.one '(', .word x.toList, .one ')'] := by decide
  obtain ⟨hdigit, hsym⟩ := htype type (mem_typeNames_of_ofName? hty)
  have hsym := hsym close (by simpa using hclose)
  refine ⟨⟨starts_append (starts_append (starts_append (by decide))),
    ends_append hx.last⟩, ?_⟩
  rw [hx.lex_after hsym.last, hsym.lex_eq]
  exact .cast hdigit hty hx.spells

/-- A sign can stand behind the type. -/
theorem operand_cast_neg {type : String} (hty : IntType.ofName? type = some ty) (hx : Operand x e) :
    Operand ("(" ++ type ++ ")" ++ ("-" ++ x)) (.cast ty (.unary .neg e)) := by
  have htype : ∀ x ∈ typeNames, starts Char.isDigit x = false ∧
      Symbol ("(" ++ x ++ ")-") [.one '(', .word x.toList, .one ')', UnOp.neg.token] := by decide
  obtain ⟨hdigit, hsym⟩ := htype type (mem_typeNames_of_ofName? hty)
  have htext : "(" ++ type ++ ")" ++ ("-" ++ x) = "(" ++ type ++ ")-" ++ x := by
    simp [← String.toList_inj]
  rw [htext]
  refine ⟨⟨starts_append (starts_append (starts_append (by decide))),
    ends_append hx.last⟩, ?_⟩
  rw [hx.lex_after hsym.last, hsym.lex_eq]
  exact .cast hdigit hty (.unary .neg hx.spells)

theorem Identifier.label (h : Identifier x) : Label x where
  toIsWord := h.toIsWord
  notNumber := h.start
  notType := Option.eq_none_iff_forall_ne_some.2 fun _ hty =>
    h.notType (mem_typeNames_of_ofName? hty)

theorem Identifier.eval_name (h : Identifier x) (σ : Store) :
    (Term.name x).eval σ = σ (.name x) := by
  have htrue : x ≠ "true" := by rintro rfl; exact h.notKeyword (by decide)
  have hfalse : x ≠ "false" := by rintro rfl; exact h.notKeyword (by decide)
  rw [Term.eval, if_neg htrue, if_neg hfalse]

/-- A word that begins like no type is a label, whatever it goes on with. -/
theorem Label.append {mark : String} (h : Label mark)
    (hty : ∀ ty ∈ typeNames, ty.toList.head? ≠ mark.toList.head?)
    (hx : x.toList.all isWordChar = true) : Label (mark ++ x) := by
  have hhead : (mark ++ x).toList.head? = mark.toList.head? := by
    cases hm : mark.toList with
    | nil => exact absurd (String.toList_eq_nil_iff.1 hm) h.nonempty
    | cons c cs => simp [hm]
  refine ⟨h.toIsWord.append hx, ⟨by rw [hhead]; exact h.notNumber, ?_⟩⟩
  exact Option.eq_none_iff_forall_ne_some.2 fun ty hname =>
    hty _ (mem_typeNames_of_ofName? hname) hhead

end PacketC.Code
