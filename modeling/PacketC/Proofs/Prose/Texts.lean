import PacketC.Proofs.Scope.Words

/-! Properties of texts that are kept where texts meet at a mark. What such a property asks of the
fixed texts of the code is checked by looking at a few characters at a time: that they apply none
of the macros for fields of the packet, that no number stands behind an underscore, and that they
stay on their line unless the property does not mind. -/

namespace PacketC.Code

/-! ### Fixed texts -/

/-- No three characters in a row are those that all macros for fields of the packet have. -/
def isFree : List Char → Bool
  | c :: d :: e :: rest =>
    !((c == 'P' && d == 'A' && e == 'C') || (c == 't' && d == '_' && e == 'f')) &&
      isFree (d :: e :: rest)
  | _ => true

variable {cs : List Char} {lined : Bool}

theorem isFree_tail {c : Char} (h : isFree (c :: cs) = true) : isFree cs = true := by
  rcases cs with _ | ⟨d, _ | ⟨e, cs⟩⟩
  · rfl
  · rfl
  · rw [isFree, Bool.and_eq_true] at h
    exact h.2

theorem isFree_suffix {a : List Char} (b : List Char) (h : isFree (b ++ a) = true) :
    isFree a = true := by
  induction b with
  | nil => exact h
  | cons c b ih => exact ih (isFree_tail h)

theorem isFree_of_all (h : cs.all (fun c => c != '_' && c != 'P') = true) : isFree cs = true := by
  induction cs with
  | nil => rfl
  | cons c cs ih =>
    simp only [List.all_cons, Bool.and_eq_true, bne_iff_ne] at h
    have hrest := ih h.2
    rcases cs with _ | ⟨d, _ | ⟨e, cs⟩⟩
    · rfl
    · rfl
    · have hd : d ≠ '_' := by
        have hall := h.2
        simp only [List.all_cons, Bool.and_eq_true, bne_iff_ne] at hall
        exact hall.1.1
      rw [isFree, hrest]
      simp [h.1.2, hd]

/-- A fixed text, which may go over several lines if `lined` says so. -/
def isFixed (lined : Bool) (cs : List Char) : Bool :=
  isFree cs && isPlain cs && (cs.all (· != '\n') || lined)

/-- Characters that are fixed texts in any order. -/
def isSpelling (c : Char) : Bool := c != '_' && c != 'P' && c != '\n'

theorem isFixed_of_all (h : cs.all isSpelling = true) : isFixed lined cs = true := by
  have hall : ∀ {p : Char → Bool}, (∀ c, isSpelling c = true → p c = true) →
      cs.all p = true := fun hp =>
    List.all_eq_true.2 fun c hc => hp c (List.all_eq_true.1 h c hc)
  have hfree : isFree cs = true := isFree_of_all (hall fun c hc => by
    simp only [isSpelling, Bool.and_eq_true] at hc ⊢
    exact hc.1)
  have hplain : isPlain cs = true := isPlain_of_all (hall fun c hc => by
    simp only [isSpelling, Bool.and_eq_true] at hc
    exact hc.1.1)
  have hline : cs.all (· != '\n') = true := hall fun c hc => by
    simp only [isSpelling, Bool.and_eq_true] at hc
    exact hc.2
  rw [isFixed, hfree, hplain, hline]
  rfl

theorem isFixed_suffix {a : List Char} (b : List Char) (h : isFixed lined (b ++ a) = true) :
    isFixed lined a = true := by
  simp only [isFixed, Bool.and_eq_true, Bool.or_eq_true, List.all_append] at h ⊢
  exact ⟨⟨isFree_suffix b h.1.1, (isPlain_append h.1.2).2⟩, h.2.imp_left And.right⟩

/-- A fixed text that may stand before an argument. -/
def isOpening (lined : Bool) (cs : List Char) : Bool :=
  isFixed lined cs && cs.getLast?.any isMark

/-- A fixed text that may stand after an argument. -/
def isClosing (lined : Bool) (cs : List Char) : Bool :=
  isFixed lined cs && cs.head?.any isMark

/-- A fixed text that may stand between two arguments. -/
def isBetween (lined : Bool) (cs : List Char) : Bool :=
  isClosing lined cs && cs.getLast?.any isMark

/-- The last letter of a word that makes names longer: no macro for fields ends in it, and no name
from a supply. -/
def isEndLetter (c : Char) : Bool := c != 'T' && c != 'd' && !c.isDigit

/-- A fixed text that makes a name longer and goes on after a mark. -/
def isLonger (lined : Bool) (cs : List Char) : Bool :=
  isFixed lined cs && (cs.takeWhile isWordChar).getLast?.any isEndLetter

/-! ### Texts put together -/

/-- The property holds of fixed texts, and of two texts that meet at a mark if it holds of both. -/
structure Closed (lined : Bool) (P : String → Prop) : Prop where
  fixed : ∀ {cs : List Char}, isFixed lined cs = true → P (String.ofList cs)
  append : ∀ {a b : String}, ends isMark a = true ∨ starts isMark b = true → P a → P b → P (a ++ b)

/-- A name that is made longer by a word, and what comes after the word. -/
theorem append_word {P : String → Prop}
    (happend : ∀ {a b}, ends isMark a = true ∨ starts isMark b = true → P a → P b → P (a ++ b))
    {x : String} (hname : P (x ++ String.ofList (cs.takeWhile isWordChar)))
    (hrest : P (String.ofList (cs.dropWhile isWordChar))) : P (x ++ String.ofList cs) := by
  have hsplit : x ++ String.ofList cs = x ++ String.ofList (cs.takeWhile isWordChar) ++
      String.ofList (cs.dropWhile isWordChar) := by
    rw [String.append_assoc, ← String.ofList_append, List.takeWhile_append_dropWhile]
  rw [hsplit]
  cases hdrop : cs.dropWhile isWordChar with
  | nil => simpa using hname
  | cons c ds =>
    have hnot := List.head?_dropWhile_not isWordChar cs
    rw [hdrop] at hnot hrest
    refine happend (.inr ?_) hname hrest
    rw [starts, String.toList_ofList]
    simpa [isMark] using hnot

/-- A text after which others of the first kind may follow, and then it is one of the second. -/
structure Opening (lined : Bool) (P T : String → Prop) (text : String) : Prop where
  closed : Closed lined P
  holds : P text
  ends : ends isMark text = true
  last : ∀ {x : String}, P x → T (text ++ x)

namespace Opening

variable {lined : Bool} {P T : String → Prop} {a x y : String} {cs : List Char}

theorem whole (ha : Opening lined P T a) : T a := by
  have hall := ha.last (ha.closed.fixed (rfl : isFixed lined [] = true))
  rwa [String.ofList_nil, String.append_empty] at hall

/-- Two texts that do not meet at a mark. -/
theorem joined (ha : Opening lined P T a) (hxy : P (x ++ y)) : T (a ++ x ++ y) := by
  rw [String.append_assoc]
  exact ha.last hxy

/-- A text that goes on, and ends so that another one may follow. -/
theorem lengthen (ha : Opening lined P T a) (hx : P (x ++ String.ofList cs))
    (hlast : cs.getLast?.any isMark = true) : Opening lined P T (a ++ x ++ String.ofList cs) := by
  have hends : Code.ends isMark (x ++ String.ofList cs) = true := by
    refine ends_append ?_
    rw [Code.ends, String.toList_ofList]
    exact hlast
  rw [String.append_assoc]
  refine ⟨ha.closed, ha.closed.append (.inl ha.ends) ha.holds hx, ends_append hends, fun hy => ?_⟩
  rw [String.append_assoc]
  exact ha.last (ha.closed.append (.inl hends) hx hy)

end Opening

namespace Closed

variable {lined : Bool} {P : String → Prop} {x : String} {cs : List Char} {parts : List String}

variable (h : Closed lined P)

include h

theorem empty : P "" := h.fixed rfl

theorem literal (hx : isFixed lined x.toList = true) : P x := by
  have hfixed := h.fixed hx
  rwa [String.ofList_toList] at hfixed

/-- A text of the property that ends in a mark. -/
theorem opening (hx : P x) (hends : ends isMark x = true) :
    Opening lined P P x := ⟨h, hx, hends, h.append (.inl hends) hx⟩

theorem opens (hcs : isOpening lined cs = true) : Opening lined P P (String.ofList cs) := by
  rw [isOpening, Bool.and_eq_true] at hcs
  refine h.opening (h.fixed hcs.1) ?_
  rw [Code.ends, String.toList_ofList]
  exact hcs.2

theorem ending (hx : P x) (hcs : isClosing lined cs = true) : P (x ++ String.ofList cs) := by
  rw [isClosing, Bool.and_eq_true] at hcs
  refine h.append (.inr ?_) hx (h.fixed hcs.1)
  rw [starts, String.toList_ofList]
  exact hcs.2

/-- An argument in front of a fixed text. -/
theorem start (hx : P x) (hcs : isBetween lined cs = true) :
    Opening lined P P (x ++ String.ofList cs) := by
  rw [isBetween, Bool.and_eq_true] at hcs
  refine h.opening (h.ending hx hcs.1) (ends_append ?_)
  rw [Code.ends, String.toList_ofList]
  exact hcs.2

/-- A name that is made longer by a fixed text, from what a word makes of it. -/
theorem longer (hword : ∀ {w : String}, w.toList.all isWordChar = true →
      ends isEndLetter w = true → P (x ++ w)) (hcs : isLonger lined cs = true) :
    P (x ++ String.ofList cs) := by
  rw [isLonger, Bool.and_eq_true] at hcs
  refine append_word h.append (hword ?_ ?_) (h.fixed (isFixed_suffix (cs.takeWhile isWordChar) ?_))
  · rw [String.toList_ofList]; exact List.all_takeWhile
  · rw [Code.ends, String.toList_ofList]; exact hcs.2
  · rw [List.takeWhile_append_dropWhile]; exact hcs.1

theorem intercalate (hcs : isBetween lined cs = true) (hparts : ∀ part ∈ parts, P part) :
    P ((String.ofList cs).intercalate parts) := by
  induction parts with
  | nil => exact h.empty
  | cons part parts ih =>
    rw [List.forall_mem_cons] at hparts
    cases parts with
    | nil => simpa using hparts.1
    | cons next parts =>
      rw [String.intercalate_cons_cons]
      have hstart := h.start hparts.1 hcs
      exact h.append (.inl hstart.ends) hstart.holds (ih hparts.2)

omit h in
theorem unlines (h : Closed true P) (hparts : ∀ part ∈ parts, P part) : P (Text.unlines parts) :=
  h.intercalate rfl hparts

omit h in
theorem marks (h : Closed true P) (hx : x.toList.all isMark = true) : P x := by
  have hall : ∀ {p : Char → Bool}, (∀ c, isMark c = true → p c = true) → x.toList.all p = true :=
    fun hp => List.all_eq_true.2 fun c hc => hp c (List.all_eq_true.1 hx c hc)
  have hne : ∀ {c d : Char}, isMark c = true → isMark d = false → (c != d) = true := by
    intro c d hc hd
    rw [bne_iff_ne]
    rintro rfl
    rw [hc] at hd
    cases hd
  refine h.literal ?_
  rw [isFixed, isFree_of_all (hall fun c hc => ?_), isPlain_of_all (hall fun c hc => ?_),
    Bool.or_true]
  · rfl
  · exact hne hc (by decide)
  · rw [hne hc (by decide), hne hc (by decide)]
    rfl

omit h in
theorem marks_append {y : String} (h : Closed true P) (hx : x.toList.all isMark = true) (hy : P y) :
    P (x ++ y) := by
  cases hlast : x.toList.getLast? with
  | none =>
    rw [List.getLast?_eq_none_iff, String.toList_eq_nil_iff] at hlast
    rwa [hlast, String.empty_append]
  | some c =>
    refine h.append (.inl ?_) (h.marks hx) hy
    rw [Code.ends, hlast]
    exact List.all_eq_true.1 hx c (List.mem_of_getLast? hlast)

/-! ### Numbers -/

theorem spelled (hx : x.toList.all isSpelling = true) : P x :=
  h.literal (isFixed_of_all hx)

theorem digits {base : Nat} (hb : 1 < base) (hb' : base ≤ 16) (k : Nat) :
    P (Literal.digits base k) :=
  h.fixed (isFixed_of_all (all_toDigits_of (by decide) hb hb' k))

theorem number (k : Nat) : P (toString k) :=
  h.spelled (all_toString (by decide) k)

theorem marked {mark : String} (hmark : mark.toList.all isSpelling = true) {base : Nat}
    (hb : 1 < base) (hb' : base ≤ 16) (k : Nat) : P (mark ++ Literal.digits base k) := by
  refine h.spelled ?_
  rw [String.toList_append, List.all_append, hmark, Bool.true_and, Literal.digits,
    String.toList_ofList]
  exact all_toDigits_of (by decide) hb hb' k

theorem hex (k : Nat) : P (Literal.hex k) :=
  h.marked (by decide) (by decide) (by decide) k

theorem decimal (k : Int) : P (Literal.decimal k) := by
  cases k with
  | ofNat k => exact h.digits (by decide) (by decide) k
  | negSucc k => exact h.marked (by decide) (by decide) (by decide) _

theorem inBase (base : Nat) (k : Int) : P (Literal.inBase base k) := by
  unfold Literal.inBase
  split
  · exact h.hex _
  · split
    · exact h.marked (by decide) (by decide) (by decide) _
    · exact h.decimal k

end Closed

namespace Opening

variable {lined : Bool} {P T : String → Prop} {a x : String} {cs : List Char}

theorem close (ha : Opening lined P T a) (hx : P x) (h : isClosing lined cs = true) :
    T (a ++ x ++ String.ofList cs) := ha.joined (ha.closed.ending hx h)

theorem arg (ha : Opening lined P T a) (hx : P x) (h : isBetween lined cs = true) :
    Opening lined P T (a ++ x ++ String.ofList cs) := by
  rw [isBetween, Bool.and_eq_true] at h
  exact ha.lengthen (ha.closed.ending hx h.1) h.2

theorem unlines {parts : List String} (ha : Opening true P T a) (hparts : ∀ part ∈ parts, P part) :
    T (Text.unlines (a :: parts)) := by
  cases parts with
  | nil => simpa [Text.unlines] using ha.whole
  | cons part parts =>
    rw [Text.unlines, String.intercalate_cons_cons, String.append_assoc]
    exact ha.last ((ha.closed.opens rfl).last (ha.closed.unlines hparts))

end Opening

/-! ### Texts that declare nothing -/

/-- The characters of a type: those of words and of what stands between and after them. -/
def isTypeChar (c : Char) : Bool := isWordChar c || [' ', '*', '/', '[', ']'].contains c

/-- A fixed text before an argument that cannot be declared then. -/
def isShutOpening (lined : Bool) (cs : List Char) : Bool :=
  isOpening lined cs && !cs.all isTypeChar

/-- A fixed text after an argument that cannot be declared by it. -/
def isShutBetween (lined : Bool) (cs : List Char) : Bool :=
  isBetween lined cs && !cs.all isTypeChar && (cs.takeWhile isTypeChar).all isMark

/-- Texts of the first kind make one of the second if what they start with shuts them off. -/
structure Sealed (lined : Bool) (P T : String → Prop) : Prop where
  closed : Closed lined P
  part : ∀ {x : String}, T x → P x
  fixed : ∀ {cs : List Char}, isFixed lined cs = true → T (String.ofList cs)
  opens : ∀ {cs : List Char}, isShutOpening lined cs = true →
    Opening lined P T (String.ofList cs)
  start : ∀ {x : String} {cs : List Char}, T x → isShutBetween lined cs = true →
    Opening lined P T (x ++ String.ofList cs)

/-- Where nothing more is asked. -/
theorem Closed.sealed {P : String → Prop} (h : Closed lined P) : Sealed lined P P where
  closed := h
  part := id
  fixed := h.fixed
  opens hcs := by
    rw [isShutOpening, Bool.and_eq_true] at hcs
    exact h.opens hcs.1
  start hx hcs := by
    simp only [isShutBetween, Bool.and_eq_true] at hcs
    exact h.start hx hcs.1.1

namespace Sealed

variable {lined : Bool} {P T : String → Prop} {x : String} {parts : List String}

theorem literal (h : Sealed lined P T) (hx : isFixed lined x.toList = true) : T x := by
  have hfixed := h.fixed hx
  rwa [String.ofList_toList] at hfixed

theorem intercalate {cs : List Char} (h : Sealed lined P T) (hcs : isShutBetween lined cs = true)
    (hx : T x) (hparts : ∀ part ∈ parts, P part) :
    T ((String.ofList cs).intercalate (x :: parts)) := by
  cases parts with
  | nil => simpa using hx
  | cons part parts =>
    have hbetween : isBetween lined cs = true := by
      simp only [isShutBetween, Bool.and_eq_true] at hcs
      exact hcs.1.1
    rw [String.intercalate_cons_cons]
    exact (h.start hx hcs).last (h.closed.intercalate hbetween hparts)

theorem unlines (h : Sealed true P T) (hx : T x) (hparts : ∀ part ∈ parts, P part) :
    T (Text.unlines (x :: parts)) := h.intercalate rfl hx hparts

end Sealed

/-! ### Bytes -/

theorem all_byteDigits {p : Char → Bool} (hp : ∀ d : Fin 16, p (Nat.digitChar d) = true)
    (b : UInt8) : (Literal.byteDigits b).toList.all p = true := by
  have hbyte := b.toNat_lt
  rw [Literal.byteDigits, String.toList_ofList, List.all_cons, List.all_cons,
    hp ⟨b.toNat / 16, by omega⟩, hp ⟨b.toNat % 16, by omega⟩]
  rfl

theorem all_hexBytes {p : Char → Bool} (hp : ∀ d : Fin 16, p (Nat.digitChar d) = true) (n : Int)
    (len : Nat) : (Literal.hexBytes n len).toList.all p = true := by
  rw [Literal.hexBytes, String.toList_join, List.all_eq_true]
  intro c hc
  obtain ⟨digits, hdigits, hc⟩ := List.mem_flatMap.1 hc
  obtain ⟨b, _, rfl⟩ := List.mem_map.1 hdigits
  exact List.all_eq_true.1 (all_byteDigits hp b) c hc

namespace Closed

variable {lined : Bool} {P : String → Prop}

theorem byte (h : Closed lined P) (b : UInt8) : P ("0x" ++ Literal.byteDigits b) := by
  refine h.spelled ?_
  rw [String.toList_append, List.all_append, all_byteDigits (by decide)]
  decide

theorem braced (h : Closed lined P) {items : List String} (hitems : ∀ i ∈ items, P i) :
    P (Literal.braced items) := (h.opens rfl).close (h.intercalate rfl hitems) rfl

theorem byteArray (h : Closed lined P) (base : Nat) (k : Int) (len : Nat) :
    P (Literal.byteArray base k len) := by
  refine h.braced fun i hi => ?_
  obtain ⟨b, _, rfl⟩ := List.mem_map.1 hi
  exact h.inBase base _

end Closed

end PacketC.Code
