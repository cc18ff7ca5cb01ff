import Mathlib.Data.List.Forall2
import PacketC.Lower.Buffer
import PacketC.Proofs.Code.Clause
import PacketC.Proofs.Lists.Stretches

/-! What counts of bits and bytes are worth when the code runs. A count may hold widths that are not
known before, each of which is asked for where it is needed. Given those widths, the text of a count
is read as the number of bytes that hold its bits. -/

namespace PacketC

/-- How the code asks for the width of a field. -/
def widthText (name : String) : String := s!"field_desc(pd, {name}).bitwidth"

namespace BitCount

theorem ofField_of_varWidth {f : Field} (h : f.isVarWidth = true) (name : String) :
    ofField name f = ⟨0, [widthText name]⟩ := if_pos h

theorem ofField_of_fixed {f : Field} (h : f.isVarWidth = false) (name : String) :
    ofField name f = ⟨.ofNat f.size, []⟩ := by
  rw [ofField, h]
  rfl

theorem empty_add (c : BitCount) : empty.add c = c := by simp [add, empty]

theorem add_assoc (a b c : BitCount) : (a.add b).add c = a.add (b.add c) := by
  simp [add, UInt32.add_assoc]

/-- The bits of all parts. -/
def sum : List BitCount → BitCount
  | [] => empty
  | c :: cs => c.add (sum cs)

theorem foldl_add (c : BitCount) (cs : List BitCount) : cs.foldl add c = c.add (sum cs) := by
  induction cs generalizing c with
  | nil => simp [sum, add, empty]
  | cons d cs ih => rw [List.foldl_cons, ih, sum, add_assoc]

theorem sum_append (cs ds : List BitCount) : sum (cs ++ ds) = (sum cs).add (sum ds) := by
  induction cs with
  | nil => exact (empty_add _).symm
  | cons c cs ih => rw [List.cons_append, sum, sum, ih, add_assoc]

theorem sum_flatMap {α : Type} (f : α → List BitCount) (l : List α) :
    sum (l.flatMap f) = sum (l.map fun a => sum (f a)) := by
  induction l with
  | nil => rfl
  | cons a l ih => rw [List.flatMap_cons, sum_append, ih, List.map_cons, sum]

/-! ### Values -/

variable (widths : String → Nat)

/-- The bits, where the code is told the given widths. -/
def bitsAt (c : BitCount) : Nat := c.fixed.toNat + (c.dynamic.map widths).sum

/-- The bytes that hold the bits. -/
def bytesAt (c : BitCount) : Nat := wholeBytes (c.bitsAt widths)

theorem bitsAt_add {a b : BitCount} (h : a.fixed.toNat + b.fixed.toNat < UInt32.size) :
    (a.add b).bitsAt widths = a.bitsAt widths + b.bitsAt widths := by
  have hfixed : (a.fixed + b.fixed).toNat = a.fixed.toNat + b.fixed.toNat :=
    (UInt32.toNat_add _ _).trans (Nat.mod_eq_of_lt h)
  simp only [bitsAt, add, hfixed, List.map_append, List.sum_append]
  omega

end BitCount

/-! ### Reading counts -/

namespace Code

/-- A member of a value is read like one behind a pointer. -/
def Token.undot : Token → Token
  | .one '.' => .two '-' '>'
  | t => t

def widthStore (widths : String → Nat) : Store
  | .arrow (.call "field_desc" [.name "pd", .name x]) "bitwidth" => some (widths (widthText x))
  | _ => none

/-- The value of a count. -/
def countAt (widths : String → Nat) (text : String) : Option Int :=
  (parse ((lex text.toList).map Token.undot)).bind (Term.eval (widthStore widths))

/-- The text is worth the given number next to operators of a level below `level`. -/
structure Counts (widths : String → Nat) (level : Nat) (text : String) (n : Nat) : Prop
    extends Solid text where
  exists_term : ∃ e, Spells level e ((lex text.toList).map Token.undot) ∧
    e.eval (widthStore widths) = some (n : Int)

variable {widths : String → Nat} {level a b n : Nat} {x y text : String}

theorem Counts.countAt_eq (h : Counts widths level text n) :
    countAt widths text = some (n : Int) := by
  obtain ⟨e, hspells, heval⟩ := h.exists_term
  rw [countAt, hspells.parse_eq, Option.bind_some, heval]

theorem Counts.mono (h : Counts widths level text n) {level' : Nat} (hle : level' ≤ level) :
    Counts widths level' text n := by
  obtain ⟨e, hspells, heval⟩ := h.exists_term
  exact ⟨h.toSolid, e, hspells.mono hle, heval⟩

theorem counts_number (n : Nat) : Counts widths 11 (toString n) n := by
  have hnum : Numeral (toString n) n := numeral_decimal n
  refine ⟨hnum.solid, .num n, ?_, rfl⟩
  rw [hnum.lex_eq]
  exact .primary (.num hnum.start hnum.number)

theorem counts_width (hx : Label x) : Counts widths 11 (widthText x) (widths (widthText x)) where
  first := starts_append (starts_append (by decide))
  last := ends_append (by decide)
  exists_term := by
    have hopen : (lex "field_desc(pd, ".toList).map Token.undot =
        [.word "field_desc".toList, .one '(', .word "pd".toList, .one ','] := by decide
    have hclose : (lex ").bitwidth".toList).map Token.undot =
        [.one ')', .two '-' '>', .word "bitwidth".toList] := by decide
    have htext : widthText x = "field_desc(pd, " ++ (x ++ ").bitwidth") := String.append_assoc ..
    refine ⟨.arrow (.call "field_desc" [.name "pd", .name x]) "bitwidth", ?_, rfl⟩
    rw [htext, hx.solid.lex_between (by decide) (by decide), List.map_append, List.map_append,
      hopen, hclose, hx.lex_eq]
    have hname : ∀ {x : String}, IsName x → Spells 0 (.name x) [.word x.toList] := fun h =>
      (Spells.primary (.name h)).mono (Nat.zero_le _)
    have hpd : IsName "pd" := ⟨by decide, by decide⟩
    have hcall : Primary (.call "field_desc" [.name "pd", .name x]) _ :=
      .call ⟨by decide, by decide⟩ (.more (hname hpd) (.last (hname hx.toIsName)))
    exact .primary (.arrow hcall "bitwidth")

theorem Counts.add (hx : Counts widths 9 x a) (hy : Counts widths 10 y b) :
    Counts widths 9 (x ++ "+" ++ y) (a + b) where
  first := starts_append (starts_append hx.first)
  last := ends_append hy.last
  exists_term := by
    obtain ⟨e, he, hx'⟩ := hx.exists_term
    obtain ⟨f, hf, hy'⟩ := hy.exists_term
    have hplus : lex "+".toList = [.one '+'] := by decide
    refine ⟨.binary .add e f, ?_, ?_⟩
    · rw [String.append_assoc, hx.lex_before (starts_append (by decide)),
        hy.lex_after (by decide), hplus, List.map_append, List.map_append]
      exact .binary .add he hf
    · rw [Term.eval_binary hx' hy']
      rfl

/-- A sum is worth what its parts are worth together. -/
theorem counts_intercalate {ts : List String} {ns : List Nat} (hx : Counts widths 9 x a)
    (h : List.Forall₂ (Counts widths 10) ts ns) :
    Counts widths 9 ("+".intercalate (x :: ts)) (a + ns.sum) := by
  induction h generalizing x a with
  | nil => simpa using hx
  | @cons t n ts ns ht _ ih =>
    rw [intercalate_join, List.sum_cons, ← Nat.add_assoc]
    exact ih (hx.add ht)

theorem Counts.bytes (hx : Counts widths 9 x n) :
    Counts widths 10 ("(" ++ x ++ "+7)/8") (wholeBytes n) where
  first := starts_append (starts_append (by decide))
  last := ends_append (by decide)
  exists_term := by
    have hsum : Counts widths 9 (x ++ "+" ++ "7") (n + 7) :=
      hx.add ((counts_number 7).mono (by decide))
    obtain ⟨e, he, heval⟩ := hsum.exists_term
    have hclose : lex ")/8".toList = [.one ')', .one '/', .word ['8']] := by decide
    have htext : "(" ++ x ++ "+7)/8" = "(" ++ ((x ++ "+" ++ "7") ++ ")/8") := by
      simp [String.append_assoc]
    have height : Spells 11 (.num 8) [.word ['8']] := .primary (.num (by decide) (by decide))
    refine ⟨.binary .div e (.num 8), ?_, ?_⟩
    · rw [htext, hsum.lex_between (by decide) (by decide), lex_open, hclose, List.map_append,
        List.map_append]
      have hparen : Spells 10 e _ := (Spells.primary (.paren (he.mono (Nat.zero_le _)))).looser
      have hdiv : Spells 10 (.binary .div e (.num 8)) _ := .binary .div hparen height
      simpa [Op.token, Token.undot] using hdiv
    · rw [Term.eval_binary heval rfl]
      rfl

end Code

namespace BitCount

open Code

/-- Every width that the code asks for is that of a field with a name. -/
def Named (c : BitCount) : Prop := ∀ t ∈ c.dynamic, ∃ x, Label x ∧ t = widthText x

theorem Named.add {a b : BitCount} (ha : a.Named) (hb : b.Named) : (a.add b).Named := fun t ht =>
  (List.mem_append.1 ht).elim (ha t) (hb t)

/-- The text of a count is worth the bytes that hold its bits. -/
theorem Named.counts_bytes (widths : String → Nat) {c : BitCount} (h : c.Named)
    (hfits : c.fixed.toNat + 7 < UInt32.size) : Counts widths 10 c.bytes (c.bytesAt widths) := by
  have hwidth : ∀ t ∈ c.dynamic, Counts widths 10 t (widths t) := by
    intro t ht
    obtain ⟨x, hx, rfl⟩ := h t ht
    exact (counts_width hx).mono (by decide)
  obtain ⟨fixed, dynamic⟩ := c
  cases dynamic with
  | nil =>
    rw [bytesAt, bitsAt, List.map_nil, List.sum_nil, Nat.add_zero, ← byteCount_eq hfits]
    exact (counts_number _).mono (by decide)
  | cons t ts =>
    have hts : List.Forall₂ (Counts widths 10) ts (ts.map widths) :=
      List.forall₂_map_right_iff.2 (List.forall₂_same.2 fun s hs => hwidth s (.tail t hs))
    have ht := hwidth t (.head ts)
    by_cases hfixed : 0 < fixed
    · have hsum := counts_intercalate ((counts_number fixed.toNat).mono (by decide)) (.cons ht hts)
      simpa [bytes, bytesAt, bitsAt, hfixed] using hsum.bytes
    · obtain rfl : fixed = 0 := UInt32.le_zero_iff.1 (UInt32.not_lt.1 hfixed)
      have hsum := counts_intercalate (ht.mono (by decide)) hts
      simpa [bytes, bytesAt, bitsAt] using hsum.bytes

end BitCount

end PacketC
