import Mathlib.Data.List.Forall2
import PacketC.Proofs.Code.Clause
import PacketC.Proofs.Code.Statement

/-! Reading statements. A spelling closes every parenthesis that it opens and has no semicolon, so
it is cut out of a statement as a whole; each declaration, each call and each conditional is then
read as what it is, whatever follows it. -/

namespace PacketC.Code

/-! ### Texts without comments and line feeds -/

def isFlat (text : String) : Bool := text.toList.all fun c => c != '/' && c != '\n'

@[simp]
theorem isFlat_append (a b : String) : isFlat (a ++ b) = (isFlat a && isFlat b) := by
  simp [isFlat]

theorem isFlat_of_word {x : String} (h : x.toList.all isWordChar = true) : isFlat x = true := by
  simp only [isFlat, List.all_eq_true] at h ⊢
  intro c hc
  have hslash : c ≠ '/' := by rintro rfl; exact absurd (h _ hc) (by decide)
  have hfeed : c ≠ '\n' := by rintro rfl; exact absurd (h _ hc) (by decide)
  simp [hslash, hfeed]

theorem isFlat_intercalate {sep : String} {texts : List String} (hsep : isFlat sep = true)
    (h : ∀ x ∈ texts, isFlat x = true) : isFlat (sep.intercalate texts) = true := by
  induction texts with
  | nil => rfl
  | cons x texts ih =>
    have hx := h x (.head _)
    have hrest := ih fun y hy => h y (.tail _ hy)
    cases texts with
    | nil => simpa using hx
    | cons y texts => simp [String.intercalate_cons_cons, hx, hsep, hrest]

theorem unfolded_cons {c : Char} (hslash : c ≠ '/') (hfeed : c ≠ '\n') (cs : List Char) :
    unfolded false (c :: cs) = c :: unfolded false cs := by
  rw [unfolded, if_neg hfeed]
  exact fun _ h => absurd h hslash

variable {a : String}

theorem unfolded_append (h : isFlat a = true) (cs : List Char) :
    unfolded false (a.toList ++ cs) = a.toList ++ unfolded false cs := by
  unfold isFlat at h
  generalize a.toList = a at h ⊢
  induction a with
  | nil => rfl
  | cons c a ih =>
    simp only [List.all_cons, Bool.and_eq_true, bne_iff_ne] at h
    rw [List.cons_append, unfolded_cons h.1.1 h.1.2, ih h.2, List.cons_append]

theorem tokens_of_flat {text : String} (h : isFlat text = true) :
    tokens text = lex text.toList := by
  have happend := unfolded_append h []
  simp only [List.append_nil, unfolded] at happend
  rw [tokens, happend]

theorem apart_blank (c : Char) : apart c ' ' = true ∧ apart ' ' c = true := by
  have hword : isWordChar ' ' = false := by decide
  simp [apart, hword, joins]

/-- A blank ends every token. -/
theorem lex_blank_append (h : ends (· == ' ') a = true) (b : String) :
    lex (a ++ b).toList = lex a.toList ++ lex b.toList := by
  rw [String.toList_append]
  refine lex_append _ _ fun c hc d _ => ?_
  rw [ends, Option.mem_def.1 hc, Option.any_some, beq_iff_eq] at h
  exact h ▸ (apart_blank d).2

theorem lex_append_blank {b : String} (h : starts (· == ' ') b = true) (a : String) :
    lex (a ++ b).toList = lex a.toList ++ lex b.toList := by
  rw [String.toList_append]
  refine lex_append _ _ fun c _ d hd => ?_
  rw [starts, Option.mem_def.1 hd, Option.any_some, beq_iff_eq] at h
  exact h ▸ (apart_blank c).1

/-- Two lines, one after the other. -/
theorem tokens_lines (h : isFlat a = true) (b : String) :
    tokens (a ++ "\n" ++ b) = lex a.toList ++ tokens b := by
  have hfeed : "\n".toList = ['\n'] := by decide
  have hrest : lex (' ' :: unfolded false b.toList) = tokens b := by
    unfold tokens
    cases unfolded false b.toList <;> simp [lex]
  rw [tokens, String.toList_append, String.toList_append, List.append_assoc, unfolded_append h,
    hfeed, List.singleton_append, unfolded, if_pos rfl, lex_append, hrest]
  · rintro c - d hd
    obtain rfl : ' ' = d := by simpa using hd
    exact (apart_blank c).1
  · exact fun _ h => absurd h (by decide)

/-! ### Spellings as a whole -/

/-- The tokens close each parenthesis that they open, and have no semicolon. -/
structure Whole (ts : List Token) : Prop where
  closing_append : ∀ depth us,
    closing depth (ts ++ us) = (closing depth us).map (Prod.map (ts ++ ·) id)
  noSemicolon : Token.one ';' ∉ ts

namespace Whole

variable {ts us : List Token}

theorem nil : Whole [] where
  closing_append depth us := by
    rw [List.nil_append]
    cases closing depth us <;> rfl
  noSemicolon := List.not_mem_nil

theorem append (h : Whole ts) (k : Whole us) : Whole (ts ++ us) where
  closing_append depth vs := by
    rw [List.append_assoc, h.closing_append, k.closing_append, Option.map_map]
    congr 1
    funext ⟨a, b⟩
    simp
  noSemicolon := by simp [h.noSemicolon, k.noSemicolon]

theorem single {t : Token} (ho : t ≠ .one '(') (hc : t ≠ .one ')') (hs : t ≠ .one ';') :
    Whole [t] where
  closing_append depth us := by
    have hdepth : t.nesting depth = depth := by
      unfold Token.nesting
      split <;> simp_all
    rw [List.singleton_append, closing, if_neg fun h => hc h.1, hdepth]
    rfl
  noSemicolon := by simpa using hs.symm

theorem cons {t : Token} (h : Whole ts) (ho : t ≠ .one '(') (hc : t ≠ .one ')')
    (hs : t ≠ .one ';') : Whole (t :: ts) := (single ho hc hs).append h

theorem word {w : List Char} (h : Whole ts) : Whole (.word w :: ts) := h.cons nofun nofun nofun

theorem paren (h : Whole ts) : Whole (.one '(' :: (ts ++ [.one ')'])) where
  closing_append depth us := by
    have hopen : Token.nesting depth (.one '(') = depth + 1 := rfl
    have hclose : Token.nesting (depth + 1) (.one ')') = depth := rfl
    rw [List.cons_append, List.append_assoc, closing, if_neg (by simp), hopen, h.closing_append,
      List.singleton_append, closing, if_neg (by simp), hclose, Option.map_map, Option.map_map]
    congr 1
    funext ⟨a, b⟩
    simp
  noSemicolon := by simp [h.noSemicolon]

theorem op (o : Op) (h : Whole ts) : Whole (o.token :: ts) := by
  have hmark : o.token ≠ .one '(' ∧ o.token ≠ .one ')' ∧ o.token ≠ .one ';' := by
    cases o <;> decide
  exact h.cons hmark.1 hmark.2.1 hmark.2.2

theorem unary (o : UnOp) (h : Whole ts) : Whole (o.token :: ts) := by
  have hmark : o.token ≠ .one '(' ∧ o.token ≠ .one ')' ∧ o.token ≠ .one ';' := by
    cases o <;> decide
  exact h.cons hmark.1 hmark.2.1 hmark.2.2

/-- A parenthesis that is closed behind the tokens is found there. -/
theorem closing_eq (h : Whole ts) (us : List Token) :
    closing 0 (ts ++ .one ')' :: us) = some (ts, us) := by
  rw [h.closing_append, closing, if_pos ⟨rfl, rfl⟩]
  simp

theorem ending_eq (h : Whole ts) (us : List Token) :
    ending (ts ++ .one ';' :: us) = some (ts, us) := by
  have hs := h.noSemicolon
  clear h
  induction ts with
  | nil => rfl
  | cons t ts ih =>
    rw [List.mem_cons, not_or] at hs
    rw [List.cons_append, ending, if_neg (Ne.symm hs.1), ih hs.2]
    rfl

end Whole

mutual

theorem Primary.whole {e : Term} {ts : List Token} : Primary e ts → Whole ts
  | .num _ _ => Whole.nil.word
  | .name _ => Whole.nil.word
  | .paren h => h.whole.paren
  | .arrow h _ => h.whole.append (Whole.nil.word.cons nofun nofun nofun)
  | .dot h _ => h.whole.append (Whole.nil.word.cons (by decide) (by decide) (by decide))
  | .call _ h => h.whole.paren.word

theorem Args.whole {args : List Term} {ts : List Token} : Args args ts → Whole ts
  | .last h => h.whole
  | .more h hs => h.whole.append (hs.whole.cons (by decide) (by decide) (by decide))

theorem Spells.whole {n : Nat} {e : Term} {ts : List Token} : Spells n e ts → Whole ts
  | .primary h => h.whole
  | .unary op h => .unary op h.whole
  | .cast _ _ h => Whole.nil.word.paren.append h.whole
  | .binary op hl hr => hl.whole.append (.op op hr.whole)
  | .cond hc ht hf =>
    hc.whole.append ((ht.whole.append (hf.whole.cons (by decide) (by decide) (by decide))).cons
      (by decide) (by decide) (by decide))
  | .looser h => h.whole

end

/-! ### Statements -/

section Statements

variable {ts us : List Token} {n : Nat} {f : String} {args : List Term}

theorem readCall_eq (h : Spells n (.call f args) ts) (us : List Token) :
    readCall (ts ++ .one ';' :: us) = some (.call f args, us) := by
  simp [readCall, h.whole.ending_eq, h.parse_eq]

/-- A call with its name in front, and not a conditional. -/
theorem readStmt_call (h : Args args ts) (hf : IsName f) (hif : f.toList ≠ ['i', 'f']) (depth : Nat)
    (us : List Token) :
    readStmt (depth + 1) (.word f.toList :: .one '(' :: (ts ++ .one ')' :: .one ';' :: us)) =
      some (.call f args, us) := by
  have hcall := readCall_eq (.primary (.call hf h)) us
  simp only [List.cons_append, List.append_assoc, List.nil_append] at hcall
  rw [readStmt, hcall]
  · intro _ heq
    injection heq with hword
    injection hword with hword
    exact hif hword
  · nofun

theorem readStmt_braced (h : Args args ts) (hf : IsName f) (hif : f.toList ≠ ['i', 'f'])
    (depth : Nat) (us : List Token) :
    readStmt (depth + 3) (.one '\x7b' :: .word f.toList :: .one '(' ::
      (ts ++ .one ')' :: .one ';' :: .one '\x7d' :: us)) =
      some (.seq (.call f args) .skip, us) := by
  rw [readStmt, readBlock, readStmt_call h hf hif]
  · simp [readBlock]
  · nofun

/-- A conditional at the end. -/
theorem readStmt_if {depth : Nat} {c : Term} {t : Stmt} (hc : Spells n c ts)
    (ht : readStmt depth us = some (t, [])) :
    readStmt (depth + 1) (.word ['i', 'f'] :: .one '(' :: (ts ++ .one ')' :: us)) =
      some (.cond c t .skip, []) := by
  simp [readStmt, hc.whole.closing_eq, hc.parse_eq, ht]

theorem readStmt_else {depth : Nat} {c : Term} {t f : Stmt} {vs : List Token} (hc : Spells n c ts)
    (ht : readStmt depth us = some (t, .word ['e', 'l', 's', 'e'] :: vs))
    (hf : readStmt depth vs = some (f, [])) :
    readStmt (depth + 1) (.word ['i', 'f'] :: .one '(' :: (ts ++ .one ')' :: us)) =
      some (.cond c t f, []) := by
  simp [readStmt, hc.whole.closing_eq, hc.parse_eq, ht, hf]

end Statements

/-! ### Declarations -/

section Declarations

variable {ts us : List Token} {text : String} {n : Nat}

theorem Numeral.lex_eq (h : Numeral text n) :
    lex text.toList = [.word text.toList] := h.toIsWord.lex_eq

/-- The numbers of an initializer, up to its brace. -/
theorem readNumbers_eq {texts : List String} {ns : List Nat} (h : List.Forall₂ Numeral texts ns)
    (us : List Token) :
    readNumbers (lex (String.intercalate ", " texts ++ "\x7d").toList ++ us) = some (ns, us) := by
  have hclose : lex "\x7d".toList = [.one '\x7d'] := by decide
  have hcomma : lex ", ".toList = [.one ','] := by decide
  induction h with
  | nil => rfl
  | @cons text n texts ns hx hs ih =>
    cases hs with
    | nil =>
      rw [String.intercalate_singleton, hx.solid.lex_before (by decide), hx.lex_eq, hclose]
      simp [readNumbers, hx.number]
    | cons hy hs =>
      rw [String.intercalate_cons_cons, String.append_assoc, String.append_assoc,
        hx.solid.lex_before (starts_append (by decide)), hx.lex_eq,
        lex_blank_append (by decide), hcomma]
      generalize lex (String.intercalate ", " _ ++ "\x7d").toList = rest at ih ⊢
      simp [readNumbers, hx.number, ih]

theorem readItem_scalar {type x : String} {ty : IntType} {e : Term}
    (hty : IntType.ofName? type = some ty) (he : Spells n e ts) (us : List Token) :
    readItem (.word type.toList :: .word x.toList :: .one '=' :: (ts ++ .one ';' :: us)) =
      some (.scalar ty x e, us) := by
  simp [readItem, String.ofList_toList, hty, he.whole.ending_eq, he.parse_eq]

theorem readItem_blank {size : String} (hn : Numeral size n) (x : String) (us : List Token) :
    readItem (.word "uint8_t".toList :: .word x.toList :: .one '[' :: .word size.toList ::
      .one ']' :: .one ';' :: us) = some (.array x (some n) none, us) := by
  simp [readItem, readArray, readSize, String.ofList_toList, hn.number]

theorem readItem_array {vs : List Token} {size : Option Nat} {ns : List Nat}
    (hsize : readSize ts = some (size, .one '=' :: .one '\x7b' :: us))
    (h : readNumbers us = some (ns, .one ';' :: vs)) (x : String) :
    readItem (.word "uint8_t".toList :: .word x.toList :: .one '[' :: ts) =
      some (.array x size (some ns), vs) := by
  simp [readItem, readArray, String.ofList_toList, hsize, h]

theorem readItem_call {f : String} {args : List Term} (h : Args args ts) (hf : IsName f)
    (hif : f.toList ≠ ['i', 'f']) (us : List Token) :
    readItem (.word f.toList :: .one '(' :: (ts ++ .one ')' :: .one ';' :: us)) =
      some (.stmt (.call f args), us) := by
  have hread := readStmt_call h hf hif (.one '(' :: (ts ++ .one ')' :: .one ';' :: us)).length us
  simp only [readItem, List.length_cons] at hread ⊢
  rw [hread]
  rfl

theorem readItems_cons {item : Item} {count : Nat} (hne : ts ≠ [])
    (h : readItem ts = some (item, us)) :
    readItems (count + 1) ts = (readItems count us).map (item :: ·) := by
  obtain ⟨t, ts, rfl⟩ := List.exists_cons_of_ne_nil hne
  simp only [readItems, h, Option.bind_eq_bind, Option.bind_some]
  cases readItems count us <;> rfl

@[simp]
theorem readItems_nil (count : Nat) : readItems count [] = some [] := by cases count <;> rfl

theorem items_single {t : Token} {item : Item} (ht : tokens text = t :: ts)
    (h : readItem (t :: ts) = some (item, [])) : items text = some [item] := by
  rw [items, ht, List.length_cons, readItems_cons (by simp) h]
  simp

theorem items_pair {t t' u : Token} {a b : Item} (ht : tokens text = t :: t' :: ts)
    (ha : readItem (t :: t' :: ts) = some (a, u :: us)) (hb : readItem (u :: us) = some (b, [])) :
    items text = some [a, b] := by
  rw [items, ht, List.length_cons, List.length_cons, readItems_cons (by simp) ha,
    readItems_cons (by simp) hb]
  simp

end Declarations

end PacketC.Code
