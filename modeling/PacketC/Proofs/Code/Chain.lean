import PacketC.Proofs.Code.Reading

/-! Chains of conditionals, each with a call. Whatever the tests are, the chain is read as nested
conditionals, and it makes the call of the first branch whose test holds, or none. -/

namespace PacketC.Code

/-! ### Comments and line feeds -/

/-- The second text is how the first one reads without comments and line feeds. -/
def Unfolds (text flat : String) : Prop :=
  ∀ cs, unfolded false (text.toList ++ cs) = flat.toList ++ unfolded false cs

namespace Unfolds

variable {a b a' b' : String}

theorem of_flat (h : isFlat a = true) : Unfolds a a := unfolded_append h

theorem append (h : Unfolds a a') (k : Unfolds b b') : Unfolds (a ++ b) (a' ++ b') := by
  intro cs
  rw [String.toList_append, String.toList_append, List.append_assoc, h, k, List.append_assoc]

theorem intercalate {as as' : List String} (hsep : Unfolds b b')
    (h : List.Forall₂ Unfolds as as') : Unfolds (b.intercalate as) (b'.intercalate as') := by
  induction h with
  | nil => exact fun cs => rfl
  | cons h hs ih =>
    cases hs with
    | nil => simpa using h
    | cons k ks =>
      rw [String.intercalate_cons_cons, String.intercalate_cons_cons]
      exact (h.append hsep).append ih

theorem tokens_eq (h : Unfolds a a') : tokens a = lex a'.toList := by
  have hnil := h []
  simp only [List.append_nil, unfolded] at hnil
  rw [tokens, hnil]

end Unfolds

/-! ### Branches -/

/-- A call under a test. -/
structure Branch where
  test : Term
  callee : String
  args : List Term

namespace Branch

variable {bs : List Branch} {ts : List Token}

/-- The tokens of a conditional with a call in braces. -/
structure Written (b : Branch) (ts : List Token) : Prop where
  name : IsName b.callee
  notIf : b.callee.toList ≠ ['i', 'f']
  spelled : ∃ n us vs, Spells n b.test us ∧ Args b.args vs ∧ ts = .word ['i', 'f'] :: .one '(' ::
    (us ++ .one ')' :: .one '\x7b' :: .word b.callee.toList :: .one '(' ::
      (vs ++ [.one ')', .one ';', .one '\x7d']))

/-- The tokens of some branches, with `else` between them. -/
inductive Chain : List Branch → List Token → Prop
  | last {b : Branch} {ts : List Token} (h : b.Written ts) : Chain [b] ts
  | more {b : Branch} {bs : List Branch} {ts us : List Token} (h : b.Written ts)
      (hs : Chain bs us) : Chain (b :: bs) (ts ++ .word ['e', 'l', 's', 'e'] :: us)

/-- The first branch whose test holds. -/
def stmt : List Branch → Stmt
  | [] => .skip
  | b :: bs => .cond b.test (.seq (.call b.callee b.args) .skip) (stmt bs)

theorem Chain.read (h : Chain bs ts) (depth : Nat) :
    readStmt (bs.length + depth + 3) ts = some (stmt bs, []) := by
  induction h generalizing depth with
  | @last b ts h =>
    obtain ⟨hname, hif, n, us, vs, htest, hargs, rfl⟩ := h
    have hcall := readStmt_braced hargs hname hif depth []
    rw [show [b].length + depth + 3 = depth + 3 + 1 by simp; omega]
    exact readStmt_if htest hcall
  | @more b bs ts us h hs ih =>
    obtain ⟨hname, hif, n, ts, vs, htest, hargs, rfl⟩ := h
    have hcall := readStmt_braced hargs hname hif (bs.length + depth)
      (.word ['e', 'l', 's', 'e'] :: us)
    have hread := readStmt_else htest hcall (ih depth)
    rw [show (b :: bs).length + depth + 3 = bs.length + depth + 3 + 1 by simp; omega]
    simpa [stmt] using hread

theorem Chain.length_le (h : Chain bs ts) : bs.length + 3 ≤ ts.length := by
  induction h with
  | last h =>
    obtain ⟨-, -, n, us, vs, -, -, rfl⟩ := h
    simp
    omega
  | more h _ ih =>
    simp
    omega

theorem Chain.readItem_eq (h : Chain bs ts) : readItem ts = some (.stmt (stmt bs), []) := by
  obtain ⟨depth, hdepth⟩ := Nat.exists_eq_add_of_le h.length_le
  have hread := h.read depth
  rw [show bs.length + depth + 3 = ts.length by omega] at hread
  obtain ⟨us, rfl⟩ : ∃ us, ts = .word ['i', 'f'] :: .one '(' :: us := by
    cases h with
    | last h | more h _ =>
      obtain ⟨-, -, n, us, vs, -, -, rfl⟩ := h
      exact ⟨_, rfl⟩
  simp only [readItem, hread]
  rfl

/-! ### Texts of branches -/

/-- A conditional with a call in braces. -/
def text (test callee args : String) : String :=
  "if(" ++ test ++ ")\x7b" ++ callee ++ "(" ++ args ++ ");\x7d"

theorem chain_intercalate {texts : List String} (hne : texts ≠ [])
    (h : List.Forall₂ (fun t b => Written b (lex t.toList)) texts bs) :
    Chain bs (lex (String.intercalate " else " texts).toList) := by
  have helse : lex " else ".toList = [.word ['e', 'l', 's', 'e']] := by decide
  induction h with
  | nil => exact absurd rfl hne
  | cons h hs ih =>
    cases hs with
    | nil => simpa using Chain.last h
    | cons k ks =>
      have hchain := Chain.more h (ih (by simp))
      rw [String.intercalate_cons_cons, String.append_assoc,
        lex_append_blank (starts_append (by decide)), lex_blank_append (by decide), helse]
      exact hchain

/-- Branches with a line for each `else` are one statement. -/
theorem items_chain {texts flats : List String} (hne : texts ≠ [])
    (hflat : List.Forall₂ Unfolds texts flats)
    (h : List.Forall₂ (fun t b => Written b (lex t.toList)) flats bs) :
    items (String.intercalate "\nelse\n" texts) = some [.stmt (stmt bs)] := by
  have helse : Unfolds "\nelse\n" " else " := fun cs => by simp [unfolded]
  have hne' : flats ≠ [] := by
    rintro rfl
    cases hflat
    exact hne rfl
  have hchain := chain_intercalate hne' h
  have htokens := (helse.intercalate hflat).tokens_eq
  have hread := hchain.readItem_eq
  obtain ⟨t, ts, hts⟩ : ∃ t ts, lex (String.intercalate " else " flats).toList = t :: ts := by
    refine List.exists_cons_of_ne_nil fun hnil => ?_
    have hle := hchain.length_le
    rw [hnil] at hle
    simp at hle
  rw [hts] at htokens hread
  exact items_single htokens hread

end Branch

/-! ### Tests -/

/-- Between the parentheses of a conditional, the text is a test of the statement. -/
def Guards (σ : Store) (test : String) (P : Prop) : Prop :=
  ∃ flat n e us, Unfolds test flat ∧ Spells n e us ∧ Test σ e P ∧
    ∀ rest, lex ("if(" ++ (flat ++ (")\x7b" ++ rest))).toList =
      .word ['i', 'f'] :: .one '(' :: (us ++ lex (")\x7b" ++ rest).toList)

section Guards

variable {σ : Store} {test : String} {P : Prop}

theorem lex_if : lex "if(".toList = [.word ['i', 'f'], .one '('] := by decide

theorem Says.guards {n : Nat} (h : Says n σ test P) (hflat : isFlat test = true) :
    Guards σ test P := by
  obtain ⟨e, hclause, htest⟩ := h
  refine ⟨test, n, e, _, .of_flat hflat, hclause.spells, htest, fun rest => ?_⟩
  rw [hclause.lex_between (by decide) (starts_append (by decide)), lex_if]
  simp

/-- The test of a branch that takes everything. -/
theorem guards_default (hP : P) : Guards σ "true /* default */" P := by
  have htrue : Label "true" := by decide
  have hlex : lex "if(true  ".toList = [.word ['i', 'f'], .one '(', .word "true".toList] := by
    decide
  refine ⟨"true  ", 11, .name "true", _, fun cs => by simp [unfolded], htrue.operand.spells,
    ⟨1, rfl, iff_of_true (by decide) hP⟩, fun rest => ?_⟩
  have htext : "if(" ++ ("true  " ++ (")\x7b" ++ rest)) = "if(true  " ++ (")\x7b" ++ rest) := by
    rw [← String.append_assoc]
    rfl
  rw [htext, lex_blank_append (by decide), hlex, htrue.toIsWord.lex_eq]
  rfl

/-- A function that a branch can call. -/
structure Callee (f : String) : Prop extends Label f where
  notIf : f.toList ≠ ['i', 'f']
  notExtract : f ≠ "EXTRACT_BYTEBUF_PACKET"

theorem Guards.branch (h : Guards σ test P) {f args : String} {as : List Term} (hf : Callee f)
    (hargs : Arguments args as) (hflat : isFlat args = true) :
    ∃ e flat, Unfolds (Branch.text test f args) flat ∧
      Branch.Written ⟨e, f, as⟩ (lex flat.toList) ∧ Test σ e P := by
  obtain ⟨flat, n, e, us, hunfolds, hspells, htest, hlex⟩ := h
  have hif : isFlat "if(" = true := by simp [isFlat]
  have hbrace : isFlat ")\x7b" = true := by simp [isFlat]
  have hopen : isFlat "(" = true := by simp [isFlat]
  have hend : isFlat ");\x7d" = true := by simp [isFlat]
  refine ⟨e, Branch.text flat f args, ?_,
    ⟨hf.toIsName, hf.notIf, n, us, _, hspells, hargs.spells, ?_⟩, htest⟩
  · have hrest : Unfolds (")\x7b" ++ f ++ "(" ++ args ++ ");\x7d") _ := .of_flat (by
      simp [hbrace, hopen, hend, hflat, isFlat_of_word hf.chars])
    have hall := ((Unfolds.of_flat hif).append hunfolds).append hrest
    simpa only [Branch.text, String.append_assoc] using hall
  · have hopens : lex ")\x7b".toList = [.one ')', .one '\x7b'] := by decide
    have hclose : lex ");\x7d".toList = [.one ')', .one ';', .one '\x7d'] := by decide
    simp only [Branch.text, String.append_assoc]
    rw [hlex, hf.toIsWord.solid.lex_between (by decide) (starts_append (by decide)),
      hargs.lex_between (by decide) (by decide), hopens, hclose, hf.toIsWord.lex_eq, lex_open]
    simp

end Guards

/-! ### Running a chain -/

section Running

variable {rt : Runtime} {m : Machine} {α : Type} {holds : α → Bool} {callee : α → String}
  {as : List Term} {arms : List α}

/-- The chain makes the call of the first branch whose test holds. -/
theorem exec_stmt {bs : List Branch}
    (h : List.Forall₂ (fun a b => Test (m.store rt) b.test (holds a = true) ∧ Callee (callee a) ∧
      b.callee = callee a ∧ b.args = as) arms bs) :
    (Branch.stmt bs).exec rt m =
      some { m with
        calls := m.calls ++ ((arms.find? holds).map fun a => (callee a, as)).toList } := by
  induction h with
  | nil => simp [Branch.stmt, Stmt.exec]
  | @cons a b arms bs h _ ih =>
    obtain ⟨⟨v, hv, htest⟩, hcallee, hname, hargs⟩ := h
    rw [Branch.stmt, Stmt.exec, hv]
    show (if v = 0 then _ else _) = _
    by_cases hzero : v = 0
    · have hfalse : holds a = false := by simpa [hzero] using htest
      rw [if_pos hzero, ih, List.find?_cons, hfalse]
    · have htrue : holds a = true := htest.1 hzero
      have hmake : m.call rt (callee a) as =
          some { m with calls := m.calls ++ [(callee a, as)] } := by
        unfold Machine.call
        split
        · exact absurd ‹_› hcallee.notExtract
        · rfl
      rw [if_neg hzero, List.find?_cons, htrue]
      simp [Stmt.exec, hname, hargs, hmake]

/-- Each branch is a conditional under its own test. -/
theorem exists_branches {σ : Store} {args : String} {texts : List String}
    (hargs : Arguments args as) (hflat : isFlat args = true)
    (h : List.Forall₂ (fun a t => Callee (callee a) ∧ ∃ test,
      t = Branch.text test (callee a) args ∧ Guards σ test (holds a = true)) arms texts) :
    ∃ flats bs, List.Forall₂ Unfolds texts flats ∧
      List.Forall₂ (fun t b => Branch.Written b (lex t.toList)) flats bs ∧
      List.Forall₂ (fun a b => Test σ b.test (holds a = true) ∧ Callee (callee a) ∧
        b.callee = callee a ∧ b.args = as) arms bs := by
  induction h with
  | nil => exact ⟨[], [], .nil, .nil, .nil⟩
  | cons h _ ih =>
    obtain ⟨hcallee, test, rfl, hguards⟩ := h
    obtain ⟨e, flat, hunfolds, hwritten, htest⟩ := hguards.branch hcallee hargs hflat
    obtain ⟨flats, bs, hflats, hbs, htests⟩ := ih
    exact ⟨flat :: flats, _ :: bs, .cons hunfolds hflats, .cons hwritten hbs,
      .cons ⟨htest, hcallee, rfl, rfl⟩ htests⟩

theorem runPiece_single {text : String} {i : Item} (h : items text = some [i]) :
    runPiece rt m text = i.exec rt m := by simp [runPiece, h]

theorem runPiece_chain {args : String} {texts : List String} (hargs : Arguments args as)
    (hflat : isFlat args = true)
    (h : List.Forall₂ (fun a t => Callee (callee a) ∧ ∃ test, t = Branch.text test (callee a) args ∧
      Guards (m.store rt) test (holds a = true)) arms texts) :
    runPiece rt m (String.intercalate "\nelse\n" texts) =
      some { m with
        calls := m.calls ++ ((arms.find? holds).map fun a => (callee a, as)).toList } := by
  obtain ⟨flats, bs, hflats, hbs, htests⟩ := exists_branches hargs hflat h
  have hexec := exec_stmt htests
  cases hflats with
  | nil =>
    cases hbs
    cases htests
    simp [runPiece, items, tokens, unfolded, lex]
  | cons ht hts =>
    rw [runPiece_single (Branch.items_chain (List.cons_ne_nil _ _) (.cons ht hts) hbs)]
    exact hexec

end Running

end PacketC.Code
