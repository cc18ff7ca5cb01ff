import PacketC.Proofs.Code.Text
import PacketC.Proofs.Text.Reading

/-! The words of a text, in their order. Where two texts meet at a character that belongs to no
word, the words of the whole are those of the one and then those of the other, so the words of
generated code are read off from what it was put together from. The names that a supply hands out
end in an underscore and a number; the fixed parts of the code have no such word. -/

namespace PacketC.Code

variable {cs s w : List Char}

/-! ### Words -/

/-- The longest runs of characters of words, in their order. -/
def wordsIn (cs : List Char) : List (List Char) :=
  (cs.splitOnP isMark).filter fun w => !w.isEmpty

def words (text : String) : List (List Char) := wordsIn text.toList

/-- The text has the given word as an identifier. -/
def Mentions (n text : String) : Prop := n.toList ∈ words text

instance (n text : String) : Decidable (Mentions n text) := inferInstanceAs (Decidable (_ ∈ _))

variable {c : Char} {a : List Char}

theorem wordsIn_append_cons (a : List Char) (hc : isMark c = true) (b : List Char) :
    wordsIn (a ++ c :: b) = wordsIn a ++ wordsIn b := by
  rw [wordsIn, List.splitOnP_append_cons _ _ hc, List.filter_append]
  rfl

@[simp]
theorem wordsIn_nil : wordsIn [] = [] := by simp [wordsIn]

theorem wordsIn_cons (hc : isMark c = true) (b : List Char) : wordsIn (c :: b) = wordsIn b := by
  simpa using wordsIn_append_cons [] hc b

theorem wordsIn_append_left (h : ∀ c ∈ a.getLast?, isMark c = true) (b : List Char) :
    wordsIn (a ++ b) = wordsIn a ++ wordsIn b := by
  rcases List.eq_nil_or_concat a with rfl | ⟨a, c, rfl⟩
  · rfl
  · have hc : isMark c = true := h c (by simp)
    rw [List.concat_eq_append, List.append_assoc, List.singleton_append, wordsIn_append_cons a hc,
      wordsIn_append_cons a hc, wordsIn_nil, List.append_nil]

theorem wordsIn_append_right (a : List Char) {b : List Char} (h : ∀ c ∈ b.head?, isMark c = true) :
    wordsIn (a ++ b) = wordsIn a ++ wordsIn b := by
  cases b with
  | nil => simp
  | cons c b =>
    have hc : isMark c = true := h c rfl
    rw [wordsIn_append_cons a hc, wordsIn_cons hc]

theorem wordsIn_marks (h : a.all isMark = true) : wordsIn a = [] := by
  induction a with
  | nil => exact wordsIn_nil
  | cons c a ih =>
    simp only [List.all_cons, Bool.and_eq_true] at h
    rw [wordsIn_cons h.1, ih h.2]

theorem all_isMark_eq_false (h : w.all isWordChar = true) :
    ∀ c ∈ w, isMark c = false := fun c hc => by
  rw [isMark, List.all_eq_true.1 h c hc]
  rfl

theorem wordsIn_word (hne : w ≠ []) (hw : w.all isWordChar = true) : wordsIn w = [w] := by
  rw [wordsIn, List.splitOnP_eq_singleton (all_isMark_eq_false hw)]
  simp [hne]

/-- A piece between marks is part of the text, and the first one starts it. -/
theorem splitOnP_infix (p : Char → Bool) (cs : List Char) : ∃ first rest,
    cs.splitOnP p = first :: rest ∧ first <+: cs ∧ ∀ w ∈ rest, w <:+: cs := by
  induction cs with
  | nil => exact ⟨[], [], rfl, List.nil_prefix, nofun⟩
  | cons c cs ih =>
    obtain ⟨first, rest, hsplit, hfirst, hrest⟩ := ih
    rw [List.splitOnP_cons_eq_if_modifyHead, hsplit]
    split
    · refine ⟨[], first :: rest, rfl, List.nil_prefix, fun w hw => ?_⟩
      have hinfix : w <:+: cs := by
        rcases List.mem_cons.1 hw with rfl | hw
        · exact hfirst.isInfix
        · exact hrest w hw
      exact hinfix.trans (List.suffix_cons c cs).isInfix
    · refine ⟨c :: first, rest, rfl, List.cons_prefix_cons.2 ⟨rfl, hfirst⟩, fun w hw => ?_⟩
      exact (hrest w hw).trans (List.suffix_cons c cs).isInfix

theorem infix_of_mem_wordsIn (h : w ∈ wordsIn cs) : w <:+: cs := by
  obtain ⟨first, rest, hsplit, hfirst, hrest⟩ := splitOnP_infix isMark cs
  rw [wordsIn, hsplit] at h
  rcases List.mem_cons.1 (List.mem_filter.1 h).1 with rfl | hw
  · exact hfirst.isInfix
  · exact hrest w hw

theorem not_isMark_of_mem_splitOnP : ∀ w ∈ cs.splitOnP isMark, ∀ c ∈ w, isMark c = false := by
  induction cs with
  | nil => simp
  | cons d cs ih =>
    rw [List.splitOnP_cons_eq_if_modifyHead]
    split
    · simpa using ih
    · rename_i hd
      obtain ⟨first, rest, hsplit, -⟩ := splitOnP_infix isMark cs
      rw [hsplit] at ih ⊢
      simp only [List.modifyHead_cons, List.forall_mem_cons] at ih ⊢
      exact ⟨⟨by simpa using hd, ih.1⟩, ih.2⟩

/-- Only a word is mentioned. -/
theorem Mentions.isWord {n text : String} (h : Mentions n text) : IsWord n := by
  obtain ⟨hmem, hne⟩ := List.mem_filter.1 h
  refine ⟨fun hempty => ?_, List.all_eq_true.2 fun c hc => ?_⟩
  · rw [hempty] at hne
    cases hne
  · simpa [isMark] using not_isMark_of_mem_splitOnP _ hmem c hc

/-- Characters of a word at the end of a text make its last piece longer and change no other. -/
theorem splitOnP_append_word (hs : ∀ c ∈ s, isMark c = false) (x : List Char) :
    ∃ init last, x.splitOnP isMark = init ++ [last] ∧
      (x ++ s).splitOnP isMark = init ++ [last ++ s] := by
  induction x with
  | nil => exact ⟨[], [], rfl, by simpa using List.splitOnP_eq_singleton hs⟩
  | cons c x ih =>
    obtain ⟨init, last, hx, hxs⟩ := ih
    rw [List.cons_append, List.splitOnP_cons_eq_if_modifyHead, List.splitOnP_cons_eq_if_modifyHead,
      hx, hxs]
    split
    · exact ⟨[] :: init, last, rfl, rfl⟩
    · cases init with
      | nil => exact ⟨[], c :: last, rfl, rfl⟩
      | cons first init => exact ⟨(c :: first) :: init, last, rfl, rfl⟩

theorem mem_wordsIn_append_word {x : List Char} (hs : s.all isWordChar = true)
    (h : w ∈ wordsIn (x ++ s)) : w ∈ wordsIn x ∨ s <:+ w := by
  obtain ⟨init, last, hx, hxs⟩ := splitOnP_append_word (all_isMark_eq_false hs) x
  simp only [wordsIn, hx, hxs, List.filter_append, List.mem_append, List.mem_filter,
    List.mem_singleton] at h ⊢
  rcases h with h | ⟨rfl, _⟩
  · exact .inl (.inl h)
  · exact .inr (List.suffix_append last s)

/-- Characters of a word at the start of a text make its first piece longer and change no other. -/
theorem splitOnP_word_append (hs : ∀ c ∈ s, isMark c = false) (x : List Char) :
    (s ++ x).splitOnP isMark = (x.splitOnP isMark).modifyHead (s ++ ·) := by
  induction s with
  | nil =>
    obtain ⟨first, rest, hx, -⟩ := splitOnP_infix isMark x
    simp [hx]
  | cons c s ih =>
    rw [List.forall_mem_cons] at hs
    obtain ⟨first, rest, hx, -⟩ := splitOnP_infix isMark x
    rw [List.cons_append, List.splitOnP_cons_eq_if_modifyHead, ih hs.2, hx, hs.1]
    rfl

theorem mem_wordsIn_word_append {x : List Char} (hs : s.all isWordChar = true)
    (h : w ∈ wordsIn (s ++ x)) : w ∈ wordsIn x ∨ s <+: w := by
  obtain ⟨first, rest, hx, -⟩ := splitOnP_infix isMark x
  rw [wordsIn, splitOnP_word_append (all_isMark_eq_false hs), hx, List.modifyHead_cons,
    List.mem_filter, List.mem_cons] at h
  rcases h with ⟨rfl | hmem, hne⟩
  · exact .inr (List.prefix_append s first)
  · rw [wordsIn, hx]
    exact .inl (List.mem_filter.2 ⟨.tail _ hmem, hne⟩)

/-! ### Texts put together -/

section Append

variable {n a b : String}

theorem words_append (h : ends isMark a = true ∨ starts isMark b = true) :
    words (a ++ b) = words a ++ words b := by
  rw [words, String.toList_append]
  rcases h with h | h
  · refine wordsIn_append_left (fun c hc => ?_) _
    rw [ends, Option.mem_def.1 hc] at h
    exact h
  · refine wordsIn_append_right _ fun c hc => ?_
    rw [starts, Option.mem_def.1 hc] at h
    exact h

theorem mentions_append (h : ends isMark a = true ∨ starts isMark b = true) :
    Mentions n (a ++ b) ↔ Mentions n a ∨ Mentions n b := by
  rw [Mentions, words_append h, List.mem_append]
  rfl

@[simp]
theorem words_empty : words "" = [] := wordsIn_nil

/-- Marks in front of a text do not change its words. -/
theorem words_marks_append (h : a.toList.all isMark = true) : words (a ++ b) = words b := by
  cases hlast : a.toList.getLast? with
  | none =>
    rw [words, String.toList_append, List.getLast?_eq_none_iff.1 hlast]
    rfl
  | some c =>
    have hc : isMark c = true := List.all_eq_true.1 h c (List.mem_of_getLast? hlast)
    have hends : ends isMark a = true := by rw [ends, hlast]; exact hc
    rw [words_append (.inl hends), words, wordsIn_marks h, List.nil_append]

/-- Texts with marks between them have the words of all of them. -/
theorem words_intercalate {sep : String} (hne : sep ≠ "") (hsep : sep.toList.all isMark = true)
    (parts : List String) : words (sep.intercalate parts) = parts.flatMap words := by
  have hstarts : starts isMark sep = true := by
    cases hcs : sep.toList with
    | nil => exact absurd (String.toList_eq_nil_iff.1 hcs) hne
    | cons c cs =>
      rw [hcs, List.all_cons, Bool.and_eq_true] at hsep
      rw [starts, hcs]
      exact hsep.1
  induction parts with
  | nil => exact words_empty
  | cons p parts ih =>
    cases parts with
    | nil => simp
    | cons q parts =>
      rw [String.intercalate_cons_cons, String.append_assoc,
        words_append (.inr (starts_append hstarts)), words_marks_append hsep, ih]
      rfl

theorem words_unlines (parts : List String) : words (Text.unlines parts) = parts.flatMap words :=
  words_intercalate (by decide) (by decide) parts

theorem words_unwords (parts : List String) : words (Text.unwords parts) = parts.flatMap words :=
  words_intercalate (by decide) (by decide) parts

end Append

/-! ### Lines -/

theorem isMark_of_isBlankChar (h : Text.isBlankChar c = true) : isMark c = true := by
  simp only [Text.isBlankChar, Text.blankRanges, List.any_cons, List.any_nil, Bool.or_false,
    Bool.or_eq_true, Bool.and_eq_true, decide_eq_true_eq] at h
  by_contra hmark
  simp only [isMark, Bool.not_eq_true, Bool.not_eq_false', isWordChar] at hmark
  delta Char.isAlphanum Char.isAlpha Char.isUpper Char.isLower Char.isDigit at hmark
  simp only [Bool.or_eq_true, Bool.and_eq_true, decide_eq_true_eq, beq_iff_eq,
    UInt32.le_iff_toNat_le, ge_iff_le] at hmark
  change (_ ∨ _) ∨ _ at hmark
  have hval : c.val.toNat = c.toNat := rfl
  rcases hmark with ((hupper | hlower) | hdigit) | rfl
  · simp at hupper; omega
  · simp at hlower; omega
  · simp at hdigit; omega
  · revert h; decide

theorem words_of_isBlank {s : String} (h : Text.isBlank s = true) : words s = [] := by
  refine wordsIn_marks (List.all_eq_true.2 fun c hc => ?_)
  exact isMark_of_isBlankChar (Text.isBlank_iff.1 h c hc)

/-- The characters are cut at marks: into the first piece, and from the mark on the other ones. -/
inductive CutAtMarks : List Char → List (List Char) → Prop
  | nil : CutAtMarks [] []
  | cons {l rest : List Char} {others : List (List Char)}
      (hbreak : ∀ c ∈ rest.head?, isMark c = true) (hrest : wordsIn rest = others.flatMap wordsIn) :
      CutAtMarks (l ++ rest) (l :: others)

theorem CutAtMarks.wordsIn_eq {lines : List (List Char)} (h : CutAtMarks cs lines) :
    wordsIn cs = lines.flatMap wordsIn := by
  cases h with
  | nil => exact wordsIn_nil
  | cons hbreak hrest => rw [wordsIn_append_right _ hbreak, hrest, List.flatMap_cons]

theorem cutAtMarks_lineChars (cs : List Char) : CutAtMarks cs (Text.lineChars cs) := by
  fun_induction Text.lineChars cs with
  | case1 => exact .nil
  | case2 rest ih =>
    refine .cons (l := []) (by simp; decide) ?_
    rw [wordsIn_cons (by decide), ih.wordsIn_eq]
  | case3 rest ih =>
    refine .cons (l := []) (by simp; decide) ?_
    rw [wordsIn_cons (by decide), wordsIn_cons (by decide), ih.wordsIn_eq]
  | case4 c rest _ _ hnil ih =>
    rw [hnil] at ih
    cases ih
    exact .cons (l := [c]) (by simp) rfl
  | case5 c rest _ _ line lines hlines ih =>
    rw [hlines] at ih
    cases ih with
    | cons hbreak hrest => exact .cons (l := c :: line) hbreak hrest

theorem cutAtMarks_splitChars {separator : Char} (h : isMark separator = true) (cs : List Char) :
    CutAtMarks cs (Text.splitChars separator cs) := by
  fun_induction Text.splitChars separator cs with
  | case1 => exact .cons (l := []) (by simp) rfl
  | case2 rest ih =>
    refine .cons (l := []) (by simp [h]) ?_
    rw [wordsIn_cons h, ih.wordsIn_eq]
  | case3 c rest _ hnil ih =>
    rw [hnil] at ih
    cases ih
    exact .cons (l := [c]) (by simp) rfl
  | case4 c rest _ word words hwords ih =>
    rw [hwords] at ih
    cases ih with
    | cons hbreak hrest => exact .cons (l := c :: word) hbreak hrest

theorem flatMap_words_words (s : String) : (Text.words s).flatMap words = words s := by
  rw [Text.words, List.flatMap_map, words,
    (cutAtMarks_splitChars (by decide : isMark ' ' = true) s.toList).wordsIn_eq]
  simp only [words, String.toList_ofList]

theorem flatMap_words_lines (s : String) : (Text.lines s).flatMap words = words s := by
  rw [Text.lines, List.flatMap_map, words, (cutAtMarks_lineChars s.toList).wordsIn_eq]
  simp only [words, String.toList_ofList]

theorem words_reading : Text.Reading words where
  empty := words_empty
  margin h _ := words_marks_append
    (List.all_eq_true.2 fun c hc => isMark_of_isBlankChar (Text.isBlank_iff.1 h c hc))
  below a b := by simpa [Text.unlines] using words_unlines [a, b]
  lines := flatMap_words_lines

theorem words_stacked (pieces : List String) : words (stacked pieces) = pieces.flatMap words :=
  words_reading.stacked pieces

/-! ### Numbered names -/

/-- No underscore has a digit right after it. -/
def isPlain : List Char → Bool
  | c :: d :: rest => !(c == '_' && d.isDigit) && isPlain (d :: rest)
  | _ => true

theorem isPlain_append {b : List Char} (h : isPlain (a ++ b) = true) :
    isPlain a = true ∧ isPlain b = true := by
  induction a with
  | nil => exact ⟨rfl, h⟩
  | cons c a ih =>
    cases a with
    | nil =>
      refine ⟨rfl, ?_⟩
      cases b with
      | nil => rfl
      | cons d b =>
        rw [List.singleton_append, isPlain, Bool.and_eq_true] at h
        exact h.2
    | cons d a =>
      rw [List.cons_append, List.cons_append, isPlain, Bool.and_eq_true] at h
      obtain ⟨ha, hb⟩ := ih h.2
      exact ⟨by rw [isPlain, h.1, ha, Bool.and_self], hb⟩

theorem isPlain_of_all (h : cs.all (· != '_') = true) : isPlain cs = true := by
  induction cs with
  | nil => rfl
  | cons c cs ih =>
    simp only [List.all_cons, Bool.and_eq_true, bne_iff_ne] at h
    cases cs with
    | nil => rfl
    | cons d cs =>
      rw [isPlain, ih h.2]
      simp [h.1]

/-- A text in which no number follows an underscore, also not if it follows one itself. -/
def Unnumbered (text : String) : Prop := isPlain ('_' :: text.toList) = true

instance (text : String) : Decidable (Unnumbered text) :=
  inferInstanceAs (Decidable (isPlain ('_' :: text.toList) = true))

namespace Unnumbered

/-- Texts can be joined where no number follows an underscore at the seam. -/
theorem isPlain_join {a b : List Char} (ha : isPlain a = true) (hb : isPlain b = true)
    (hseam : ∀ c ∈ a.getLast?, ∀ d ∈ b.head?, (c == '_' && d.isDigit) = false) :
    isPlain (a ++ b) = true := by
  induction a with
  | nil => exact hb
  | cons c a ih =>
    cases a with
    | nil =>
      cases b with
      | nil => rfl
      | cons d b =>
        rw [List.singleton_append, isPlain, hseam c rfl d rfl, hb]
        rfl
    | cons d a =>
      rw [isPlain, Bool.and_eq_true] at ha
      rw [List.getLast?_cons_cons] at hseam
      rw [List.cons_append, List.cons_append, isPlain, ha.1]
      exact ih ha.2 hseam

variable {a b : String}

theorem isPlain (h : Unnumbered a) : isPlain a.toList = true :=
  (isPlain_append (a := ['_']) h).2

theorem append (ha : Unnumbered a) (hb : Unnumbered b) : Unnumbered (a ++ b) := by
  rw [Unnumbered, String.toList_append, ← List.cons_append]
  refine isPlain_join ha hb.isPlain fun c _ d hd => ?_
  rw [Unnumbered] at hb
  cases hb' : b.toList with
  | nil => rw [hb'] at hd; cases hd
  | cons d' rest =>
    rw [hb'] at hd hb
    cases hd
    simp only [Code.isPlain, beq_self_eq_true, Bool.true_and, Bool.and_eq_true,
      Bool.not_eq_true'] at hb
    rw [hb.1, Bool.and_false]

theorem append_number (ha : Unnumbered a) (hlast : ends (· != '_') a = true) (k : Nat) :
    Unnumbered (a ++ toString k) := by
  rw [Unnumbered, String.toList_append, ← List.cons_append]
  refine isPlain_join ha (isPlain_of_all (all_toString (by decide) k)) fun c hc d _ => ?_
  rw [ends] at hlast
  cases ha' : a.toList.getLast? with
  | none => rw [ha'] at hlast; cases hlast
  | some c' =>
    rw [ha'] at hlast
    rw [List.getLast?_cons, ha'] at hc
    cases hc
    rw [Option.getD_some, beq_eq_false_iff_ne.2 (bne_iff_ne.1 hlast), Bool.false_and]

end Unnumbered

/-- A name that ends in an underscore and a number. -/
structure Numbered (n : String) : Prop where
  mark : isPlain n.toList = false
  last : ends Char.isDigit n = true

namespace Numbered

variable {n : String}

theorem not_mem_wordsIn (hn : Numbered n) {cs : List Char} (h : isPlain cs = true) :
    n.toList ∉ wordsIn cs := by
  intro hmem
  obtain ⟨a, b, hinfix⟩ := infix_of_mem_wordsIn hmem
  rw [← hinfix] at h
  have hplain := (isPlain_append (isPlain_append h).1).2
  rw [hn.mark] at hplain
  cases hplain

theorem not_mentions (hn : Numbered n) {text : String} (h : isPlain text.toList = true) :
    ¬ Mentions n text := hn.not_mem_wordsIn h

/-- Letters at the end of a word leave no numbered word that was not there before. -/
theorem not_mentions_append (hn : Numbered n) {x s : String} (hx : ¬ Mentions n x)
    (hs : s.toList.all isWordChar = true) (hlast : ends (fun c => !c.isDigit) s = true) :
    ¬ Mentions n (x ++ s) := by
  intro h
  rw [Mentions, words, String.toList_append] at h
  rcases mem_wordsIn_append_word hs h with h | ⟨init, hsuffix⟩
  · exact hx h
  · have hdigit := hn.last
    rw [ends, ← hsuffix] at hdigit
    rw [ends] at hlast
    cases hend : s.toList.getLast? with
    | none => rw [hend] at hlast; cases hlast
    | some c =>
      rw [hend] at hlast
      rw [List.getLast?_append, hend] at hdigit
      simp_all

end Numbered

end PacketC.Code
