import PacketC.Proofs.Prose.Texts

/-! What a piece of code declares and what it uses. A declaration starts with a type and the name.
A text is allowed where a name is declared on a condition if it mentions the name on that
condition only, and has it in no place where it could be declared. Most code is a fixed text with
arguments in it; whether it is allowed is told from the arguments and from a check of each fixed
part. -/

namespace PacketC.Code

/-! ### Declarations -/

/-- What can follow the name in its declaration: its end, its bounds or its value. -/
def follows (cs : List Char) : Bool := [[';'], ['['], [' ', '=', ' ']].any (·.isPrefixOf cs)

/-- The code starts with a declaration of the name, before which there is only its type. -/
structure DeclaresAs (n type rest : String) : Prop where
  isWord : IsWord n
  starts : starts isWordChar type = true
  chars : type.toList.all isTypeChar = true
  apart : ¬ Mentions n type
  follows : follows rest.toList = true

def Declares (n code : String) : Prop :=
  ∃ type rest, code = type ++ " " ++ n ++ rest ∧ DeclaresAs n type rest

/-- The words at the start of a code that could be declared there: all but the first one, as far as
the characters of types go. -/
def later (cs : List Char) : List (List Char) := (wordsIn (cs.takeWhile isTypeChar)).tail

variable {c : Char} {cs : List Char} {n : String}

theorem isMark_of_not_isTypeChar (h : isTypeChar c = false) : isMark c = true := by
  simp only [isTypeChar, Bool.or_eq_false_iff] at h
  rw [isMark, h.1]
  rfl

theorem isTypeChar_of_isWordChar (h : isWordChar c = true) : isTypeChar c = true := by
  rw [isTypeChar, h]
  rfl

theorem mem_wordsIn_of_mem_later {w : List Char} (h : w ∈ later cs) : w ∈ wordsIn cs := by
  have hhead : ∀ c ∈ (cs.dropWhile isTypeChar).head?, isMark c = true := by
    intro c hc
    have hnot := List.head?_dropWhile_not isTypeChar cs
    rw [Option.mem_def.1 hc] at hnot
    exact isMark_of_not_isTypeChar hnot
  rw [← List.takeWhile_append_dropWhile (p := isTypeChar) (l := cs), wordsIn_append_right _ hhead]
  exact List.mem_append_left _ (List.mem_of_mem_tail h)

theorem wordsIn_ne_nil (h : isWordChar c = true) (cs : List Char) : wordsIn (c :: cs) ≠ [] := by
  obtain ⟨first, rest, hsplit, -⟩ := splitOnP_infix isMark cs
  have hmark : isMark c = false := by rw [isMark, h]; rfl
  simp [wordsIn, List.splitOnP_cons_eq_if_modifyHead, hmark, hsplit]

theorem follows_iff : follows cs = true ↔ [';'] <+: cs ∨ ['['] <+: cs ∨ [' ', '=', ' '] <+: cs := by
  simp [follows]

theorem isMark_of_follows (h : follows (c :: cs) = true) : isMark c = true := by
  rcases follows_iff.1 h with h | h | h <;>
    · rw [List.cons_prefix_cons] at h
      rw [← h.1]
      decide

/-- The first word is part of the type, so the declared name is a later one. -/
theorem Declares.mem_later {code : String} (h : Declares n code) :
    n.toList ∈ later code.toList := by
  obtain ⟨type, rest, rfl, h⟩ := h
  have hn : n.toList.all isTypeChar = true :=
    List.all_eq_true.2 fun c hc => isTypeChar_of_isWordChar (List.all_eq_true.1 h.isWord.chars c hc)
  have hbefore : ∀ c ∈ type.toList ++ ' ' :: n.toList, isTypeChar c = true := by
    intro c hc
    rcases List.mem_append.1 hc with hc | hc
    · exact List.all_eq_true.1 h.chars c hc
    · rcases List.mem_cons.1 hc with rfl | hc
      · rfl
      · exact List.all_eq_true.1 hn c hc
  have hrest : ∀ c ∈ (rest.toList.takeWhile isTypeChar).head?, isMark c = true := by
    intro c hc
    cases hcs : rest.toList with
    | nil => rw [hcs] at hc; cases hc
    | cons d ds =>
      rw [hcs, List.takeWhile_cons] at hc
      split at hc
      · cases hc; exact isMark_of_follows (hcs ▸ h.follows)
      · cases hc
  have hlist : (type ++ " " ++ n ++ rest).toList =
      (type.toList ++ ' ' :: n.toList) ++ rest.toList := by
    simp [String.toList_append]
  rw [later, hlist, List.takeWhile_append_of_pos hbefore, wordsIn_append_right _ hrest,
    wordsIn_append_cons _ (by decide), wordsIn_word (by simp [h.isWord.nonempty]) h.isWord.chars]
  have htype : wordsIn type.toList ≠ [] := by
    cases hcs : type.toList with
    | nil =>
      have := h.starts
      rw [starts, hcs] at this
      cases this
    | cons c cs =>
      have := h.starts
      rw [starts, hcs] at this
      exact wordsIn_ne_nil this cs
  rw [List.append_assoc, List.tail_append_of_ne_nil htype]
  simp

theorem Declares.mentions {code : String} (h : Declares n code) : Mentions n code :=
  mem_wordsIn_of_mem_later h.mem_later

theorem Declares.append {a : String} (h : Declares n a) (b : String) : Declares n (a ++ b) := by
  obtain ⟨type, rest, rfl, h⟩ := h
  refine ⟨type, rest ++ b, by simp only [String.append_assoc], { h with follows := ?_ }⟩
  rw [String.toList_append, follows_iff]
  have hprefix : rest.toList <+: rest.toList ++ b.toList := List.prefix_append ..
  exact (follows_iff.1 h.follows).imp (·.trans hprefix) (.imp (·.trans hprefix) (·.trans hprefix))

/-- What can follow a name in its declaration, with nothing declared by what comes after it. -/
structure Follows (text : String) : Prop where
  follows : follows text.toList = true
  ends : ends isMark text = true
  shut : text.toList.all isTypeChar = false

/-- A fixed text that can follow a name in its declaration. -/
def isFollowing (cs : List Char) : Bool :=
  follows cs && cs.getLast?.any isMark && !cs.all isTypeChar && isFixed true cs

theorem Follows.ofList (h : isFollowing cs = true) : Follows (String.ofList cs) := by
  simp only [isFollowing, Bool.and_eq_true, Bool.not_eq_true'] at h
  constructor
  case follows => rw [String.toList_ofList]; exact h.1.1.1
  case ends => rw [Code.ends, String.toList_ofList]; exact h.1.1.2
  case shut => rw [String.toList_ofList]; exact h.1.2

theorem Follows.starts {text : String} (h : Follows text) : starts isMark text = true := by
  have hfollows := h.follows
  rw [Code.starts]
  cases hcs : text.toList with
  | nil => rw [hcs] at hfollows; cases hfollows
  | cons c cs => exact isMark_of_follows (hcs ▸ hfollows)

/-- The bounds of an array, and more. -/
theorem Follows.bounds (bytes : Nat) (h : (cs.getLast?.any isMark && !cs.all isTypeChar) = true) :
    Follows ("[" ++ toString bytes ++ String.ofList cs) := by
  rw [Bool.and_eq_true, Bool.not_eq_true'] at h
  constructor
  case follows =>
    rw [String.append_assoc, String.toList_append, follows_iff]
    exact .inr (.inl (List.prefix_append _ _))
  case ends =>
    refine ends_append ?_
    rw [Code.ends, String.toList_ofList]
    exact h.1
  case shut => rw [String.toList_append, List.all_append, String.toList_ofList, h.2, Bool.and_false]

/-- A declaration, as far as the property is known of its name. -/
theorem Closed.declaration {P : String → Prop} (h : Closed true P) {head m tail : String} {B : Prop}
    (hends : ends isMark head = true) (hhead : P head) (hm : B → P m) (hfollows : Follows tail)
    (htail : P tail) : Opening true (fun x => B → P x) (fun x => B → P x) (head ++ m ++ tail) := by
  have hclosed : Closed true fun x => B → P x :=
    ⟨fun hcs _ => h.fixed hcs, fun hseam ha hb hB => h.append hseam (ha hB) (hb hB)⟩
  refine hclosed.opening (fun hB => ?_) (ends_append hfollows.ends)
  exact h.append (.inr hfollows.starts) (h.append (.inl hends) hhead (hm hB)) htail

/-! ### Texts that are allowed -/

/-- The text mentions the name only if the condition holds. -/
abbrev Covered (n : String) (C : Prop) (text : String) : Prop := Mentions n text → C

structure Allowed (n : String) (C : Prop) (text : String) : Prop where
  covered : Covered n C text
  later : n.toList ∉ later text.toList

namespace Allowed

variable {n text : String} {C C' : Prop}

theorem not_declares (h : Allowed n C text) : ¬ Declares n text := fun hd => h.later hd.mem_later

theorem mono (h : Allowed n C text) (hC : C → C') : Allowed n C' text :=
  ⟨fun hm => hC (h.covered hm), h.later⟩

theorem of_clean (h : ¬ Mentions n text) : Allowed n C text :=
  ⟨fun hm => absurd hm h, fun hl => h (mem_wordsIn_of_mem_later hl)⟩

theorem of_not_isWord (h : ¬ IsWord n) : Allowed n C text := of_clean fun hm => h hm.isWord

theorem of_plain (hn : Numbered n) {cs : List Char} (h : isPlain cs = true) :
    Allowed n C (String.ofList cs) :=
  of_clean (hn.not_mentions (by rw [String.toList_ofList]; exact h))

end Allowed

section Templates

variable {n a b x : String} {C : Prop} {cs : List Char}

theorem covered_append (hseam : ends isMark a = true ∨ starts isMark b = true)
    (ha : Covered n C a) (hb : Covered n C b) : Covered n C (a ++ b) := fun h =>
  ((mentions_append hseam).1 h).elim ha hb

theorem covered_of_clean (h : ¬ Mentions n x) : Covered n C x := fun hm => (h hm).elim

theorem covered_ofList (hn : Numbered n) (h : isPlain cs = true) : Covered n C (String.ofList cs) :=
  (Allowed.of_plain hn h).covered

theorem covered_of_all (hn : Numbered n) (h : x.toList.all (· != '_') = true) : Covered n C x :=
  covered_of_clean (hn.not_mentions (isPlain_of_all h))

/-- Covered texts are put together like those of any manner. -/
theorem closed_covered (hn : Numbered n) : Closed true (Covered n C) where
  fixed h := by
    simp only [isFixed, Bool.and_eq_true] at h
    exact covered_ofList hn h.1.2
  append := covered_append

/-! ### Fixed texts with arguments -/

/-- A covered text after which another one may follow. -/
abbrev Joint (n : String) (C : Prop) (text : String) : Prop :=
  Opening true (Covered n C) (Covered n C) text

/-- An allowed text after which another one may follow: a name that follows is not declared. -/
abbrev Ready (n : String) (C : Prop) (text : String) : Prop :=
  Opening true (Covered n C) (Allowed n C) text

/-- A fixed text that may stand before an argument, and may apply a macro to it. -/
def isHead (cs : List Char) : Bool := isPlain cs && cs.getLast?.any isMark

theorem Joint.ofList (hn : Numbered n) (h : isHead cs = true) : Joint n C (String.ofList cs) := by
  rw [isHead, Bool.and_eq_true] at h
  refine (closed_covered hn).opening (covered_ofList hn h.1) ?_
  rw [ends, String.toList_ofList]
  exact h.2

theorem later_append {a b : List Char} (h : a.all isTypeChar = false) :
    later (a ++ b) = later a := by
  rw [later, later, List.takeWhile_append, if_neg]
  intro hlength
  have heq : a.takeWhile isTypeChar = a :=
    (List.takeWhile_prefix isTypeChar).eq_of_length hlength
  rw [← heq, List.all_takeWhile] at h
  cases h

/-- What comes after a text and starts with marks adds no word that could be declared. -/
theorem later_append_marks {a b : List Char} (h : (b.takeWhile isTypeChar).all isMark = true) :
    later (a ++ b) = later a := by
  cases ha : a.all isTypeChar with
  | false => exact later_append ha
  | true =>
    have hall := List.all_eq_true.1 ha
    have htake : a.takeWhile isTypeChar = a := by
      simpa using @List.takeWhile_append_of_pos _ isTypeChar a [] hall
    rw [later, later, List.takeWhile_append_of_pos hall, htake,
      wordsIn_append_right, wordsIn_marks h, List.append_nil]
    exact fun c hc => List.all_eq_true.1 h c (List.mem_of_mem_head? hc)

/-- A text shuts off what follows if it is not all of a type. -/
theorem Joint.ready (ha : Joint n C a) (hlater : n.toList ∉ later a.toList)
    (hshut : a.toList.all isTypeChar = false) : Ready n C a where
  closed := ha.closed
  holds := ha.holds
  ends := ha.ends
  last hx := ⟨ha.last hx, by rwa [String.toList_append, later_append hshut]⟩

theorem Ready.ofList (hn : Numbered n) (h : (isHead cs && !cs.all isTypeChar) = true) :
    Ready n C (String.ofList cs) := by
  rw [Bool.and_eq_true, Bool.not_eq_true'] at h
  refine (Joint.ofList hn h.1).ready ?_ (by rw [String.toList_ofList]; exact h.2)
  rw [isHead, Bool.and_eq_true] at h
  exact (Allowed.of_plain (C := C) hn h.1.1).later

theorem sealed_allowed (hn : Numbered n) : Sealed true (Covered n C) (Allowed n C) where
  closed := closed_covered hn
  part := Allowed.covered
  fixed h := by
    simp only [isFixed, Bool.and_eq_true] at h
    exact .of_plain hn h.1.2
  opens {cs} h := by
    simp only [isShutOpening, isOpening, isFixed, Bool.and_eq_true] at h
    exact Ready.ofList hn (by simp only [isHead, Bool.and_eq_true]; exact ⟨⟨h.1.1.1.2, h.1.2⟩, h.2⟩)
  start {x cs} hx h := by
    simp only [isShutBetween, Bool.and_eq_true, Bool.not_eq_true'] at h
    refine Joint.ready ((closed_covered hn).start hx.covered h.1.1) ?_ ?_
    · rw [String.toList_append, String.toList_ofList, later_append_marks h.2]
      exact hx.later
    · rw [String.toList_append, String.toList_ofList, List.all_append, h.1.2, Bool.and_false]

/-! ### Names with an ending -/

/-- A letter makes another name of a name. -/
theorem Numbered.not_mentions_word (hn : Numbered n) {w : String} (hx : ¬ Mentions n x)
    (hw : w.toList.all isWordChar = true) (hlast : ends isEndLetter w = true) :
    ¬ Mentions n (x ++ w) := by
  refine hn.not_mentions_append hx hw ((Option.any_eq_true _ _).2 ?_)
  obtain ⟨c, hc, hletter⟩ := (Option.any_eq_true _ _).1 hlast
  simp only [isEndLetter, Bool.and_eq_true] at hletter
  exact ⟨c, hc, hletter.2⟩

/-! ### Numbers and names -/

theorem covered_toString (hn : Numbered n) (k : Nat) : Covered n C (toString k) :=
  (closed_covered hn).number k

/-- The name by itself is not declared. -/
theorem Allowed.self (hC : C) : Allowed n C n := by
  refine ⟨fun _ => hC, fun hmem => ?_⟩
  have hword : IsWord n := Mentions.isWord (mem_wordsIn_of_mem_later hmem)
  have hchars : ∀ c ∈ n.toList, isTypeChar c = true := fun c hc =>
    isTypeChar_of_isWordChar (List.all_eq_true.1 hword.chars c hc)
  have htake : n.toList.takeWhile isTypeChar = n.toList := by
    simpa using @List.takeWhile_append_of_pos _ isTypeChar n.toList [] hchars
  rw [Code.later, htake, wordsIn_word (by simp [hword.nonempty]) hword.chars] at hmem
  cases hmem

end Templates

end PacketC.Code
