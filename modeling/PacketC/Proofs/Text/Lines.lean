import PacketC.Text.Blank
import PacketC.Text.Lines

/-! Lines of texts that are put one below the other. A text that stands above others loses a
carriage return at its end, so its lines there are those of the text with a line feed behind it; for
a text that ends in something other than white space these are its own. -/

namespace PacketC.Text

variable {cs : List Char} {ps : List String}

theorem isBlank_append (a b : String) : isBlank (a ++ b) = (isBlank a && isBlank b) := by
  simp [isBlank, String.toList_append]

/-! ### Ends of texts -/

/-- The text ends in something other than white space. -/
def Ended (s : String) : Prop := s.toList.getLast?.any (fun c => !isBlankChar c) = true

/-- The text has no line feed at its end. -/
def Unfinished (s : String) : Prop := s.toList.getLast? ≠ some '\n'

theorem getLast?_append_of_ne_empty (a : String) {b : String} (h : b ≠ "") :
    (a ++ b).toList.getLast? = b.toList.getLast? := by
  rw [String.toList_append, List.getLast?_append]
  cases hb : b.toList.getLast? with
  | none => exact absurd (String.toList_eq_nil_iff.1 (List.getLast?_eq_none_iff.1 hb)) h
  | some c => rfl

theorem Unfinished.append (a : String) {b : String} (h : Unfinished b) (hne : b ≠ "") :
    Unfinished (a ++ b) := by
  rw [Unfinished, getLast?_append_of_ne_empty a hne]
  exact h

namespace Ended

variable {s : String}

theorem exists_last (h : Ended s) : ∃ cs c, s.toList = cs ++ [c] ∧ isBlankChar c = false := by
  unfold Ended at h
  cases hlast : s.toList.getLast? with
  | none => rw [hlast] at h; cases h
  | some c =>
    obtain ⟨cs, hcs⟩ := List.getLast?_eq_some_iff.1 hlast
    rw [hlast] at h
    exact ⟨cs, c, hcs, by simpa using h⟩

theorem ne_empty (h : Ended s) : s ≠ "" := by
  rintro rfl
  cases h

theorem append (a : String) {b : String} (h : Ended b) : Ended (a ++ b) := by
  rw [Ended, getLast?_append_of_ne_empty a h.ne_empty]
  exact h

theorem unfinished (h : Ended s) : Unfinished s := by
  obtain ⟨cs, c, hcs, hc⟩ := h.exists_last
  rw [Unfinished, hcs, List.getLast?_concat]
  rintro ⟨rfl⟩
  cases hc

theorem isBlank_eq_false (h : Ended s) : isBlank s = false := by
  obtain ⟨cs, c, hcs, hc⟩ := h.exists_last
  simp [isBlank, hcs, hc]

theorem unlines {parts : List String} (hne : parts ≠ []) (h : ∀ p ∈ parts, Ended p) :
    Ended (unlines parts) := by
  induction parts with
  | nil => exact absurd rfl hne
  | cons p rest ih =>
    by_cases hrest : rest = []
    · subst hrest
      simpa [Text.unlines] using h p (.head [])
    · rw [Text.unlines, String.intercalate_cons_of_ne_nil hrest]
      exact .append _ (ih hrest fun q hq => h q (.tail p hq))

end Ended

/-- Pieces without anything to be read in them can be left out. -/
theorem flatMap_nonblank {γ : Type} {f : String → List γ} (h : ∀ s, isBlank s = true → f s = [])
    (ps : List String) : (ps.filter fun s => !isBlank s).flatMap f = ps.flatMap f := by
  induction ps with
  | nil => rfl
  | cons p rest ih =>
    cases hp : isBlank p with
    | true => simp [hp, ih, h p hp]
    | false => simp [hp, ih]

/-- A text without a line feed at its end has none to drop. -/
theorem Unfinished.dropFinalBreaks {s : String} (h : Unfinished s) : dropFinalBreaks s = s := by
  have hkeep : s.toList.reverse.dropWhile (· == '\n') = s.toList.reverse := by
    rw [Unfinished, ← List.head?_reverse] at h
    cases hcs : s.toList.reverse with
    | nil => rfl
    | cons c cs =>
      rw [hcs] at h
      exact List.dropWhile_cons_of_neg fun hc => h (by rw [List.head?_cons, eq_of_beq hc])
  rw [Text.dropFinalBreaks, hkeep, List.reverse_reverse, String.ofList_toList]

def breaks (n : Nat) : String := String.ofList (List.replicate n '\n')

theorem breaks_succ (n : Nat) : breaks (n + 1) = "\n" ++ breaks n :=
  String.toList_injective (by simp [breaks, List.replicate_succ])

theorem isBlank_breaks (n : Nat) : isBlank (breaks n) = true := by
  have hbreak : isBlankChar '\n' = true := rfl
  simp [breaks, isBlank, hbreak]

/-- All that a text loses are line feeds at its end. -/
theorem exists_finalBreaks (s : String) : ∃ n, s = dropFinalBreaks s ++ breaks n := by
  refine ⟨(s.toList.reverse.takeWhile (· == '\n')).length, String.toList_injective ?_⟩
  have hbreaks := List.eq_replicate_of_mem (l := s.toList.reverse.takeWhile (· == '\n')) fun c hc =>
    eq_of_beq (List.all_eq_true.1 List.all_takeWhile c hc)
  rw [← List.reverse_inj, String.toList_append, List.reverse_append, breaks, dropFinalBreaks,
    String.toList_ofList, String.toList_ofList, List.reverse_replicate, List.reverse_reverse,
    ← hbreaks, List.takeWhile_append_dropWhile]

/-! ### Lines -/

/-- The lines of a text that stands above another one. -/
def linesAbove (s : String) : List String := lines (s ++ "\n")

/-- A character in front of the first line. -/
def extendFirst (c : Char) : List (List Char) → List (List Char)
  | [] => [[c]]
  | line :: rest => (c :: line) :: rest

theorem extendFirst_append (c : Char) {lines : List (List Char)} (h : lines ≠ [])
    (rest : List (List Char)) : extendFirst c (lines ++ rest) = extendFirst c lines ++ rest := by
  cases lines with
  | nil => exact absurd rfl h
  | cons line lines => rfl

theorem lineChars_cons {c : Char} (hc : c ≠ '\n') (hr : c = '\r' → cs.head? ≠ some '\n') :
    lineChars (c :: cs) = extendFirst c (lineChars cs) := by
  rw [lineChars.eq_4]
  · cases lineChars cs <;> rfl
  · exact hc
  · rintro rest rfl rfl
    exact hr rfl rfl

/-- Induction along the lines: a text goes on with a break or with a character of its first line. -/
@[elab_as_elim]
theorem induction_lineChars {motive : List Char → Prop} (nil : motive [])
    (feed : ∀ cs, motive cs → motive ('\n' :: cs))
    (returnFeed : ∀ cs, motive cs → motive ('\r' :: '\n' :: cs))
    (other : ∀ c cs, c ≠ '\n' → (c = '\r' → cs.head? ≠ some '\n') → motive cs → motive (c :: cs))
    (cs : List Char) : motive cs := by
  have hother : ∀ c cs, (c = '\n' → False) → (∀ rest, c = '\r' → cs = '\n' :: rest → False) →
      motive cs → motive (c :: cs) := by
    intro c cs hc hr ih
    refine other c cs hc (fun hc' hhead => ?_) ih
    cases cs with
    | nil => cases hhead
    | cons d rest => exact hr rest hc' (by rw [Option.some.inj hhead])
  induction cs using lineChars.induct with
  | case1 => exact nil
  | case2 rest ih => exact feed rest ih
  | case3 rest ih => exact returnFeed rest ih
  | case4 c rest hc hr _ ih => exact hother c rest hc hr ih
  | case5 c rest hc hr _ _ _ ih => exact hother c rest hc hr ih

theorem lineChars_ne_nil (h : cs ≠ []) : lineChars cs ≠ [] := by
  induction cs using induction_lineChars with
  | nil => exact absurd rfl h
  | feed cs | returnFeed cs => exact List.cons_ne_nil _ _
  | other c cs hc hr =>
    rw [lineChars_cons hc hr]
    cases lineChars cs <;> exact List.cons_ne_nil _ _

theorem head?_append_of_head? {ds : List Char} {c : Char} (h : cs.head? ≠ some c)
    (hd : ds.head? ≠ some c) : (cs ++ ds).head? ≠ some c := by
  cases cs with
  | nil => exact hd
  | cons d cs => exact h

/-- A line feed ends the lines above it. -/
theorem lineChars_append_break (a b : List Char) :
    lineChars (a ++ '\n' :: b) = lineChars (a ++ ['\n']) ++ lineChars b := by
  induction a using induction_lineChars with
  | nil => simp [lineChars]
  | feed a ih => simp [lineChars, ih]
  | returnFeed a ih => simp [lineChars, ih]
  | other c a hc hr ih =>
    cases a with
    | nil =>
      by_cases hreturn : c = '\r'
      · simp [hreturn, lineChars]
      · have hnot : ∀ cs : List Char, c = '\r' → cs.head? ≠ some '\n' := fun _ h =>
          absurd h hreturn
        simp [lineChars_cons hc (hnot _), lineChars, extendFirst]
    | cons d a =>
      have hcons : ∀ cs,
          lineChars (c :: (d :: a ++ cs)) = extendFirst c (lineChars (d :: a ++ cs)) :=
        fun cs => lineChars_cons hc hr
      show lineChars (c :: (d :: a ++ '\n' :: b)) = lineChars (c :: (d :: a ++ ['\n'])) ++ _
      rw [hcons, hcons, ih, extendFirst_append]
      exact lineChars_ne_nil (by simp)

/-- A line feed after anything but a carriage return makes no difference to the lines. -/
theorem lineChars_concat_break (cs : List Char) {c : Char} (hn : c ≠ '\n') (hr : c ≠ '\r') :
    lineChars (cs ++ [c, '\n']) = lineChars (cs ++ [c]) := by
  induction cs using induction_lineChars with
  | nil =>
    have hnot : ∀ cs : List Char, c = '\r' → cs.head? ≠ some '\n' := fun _ h => absurd h hr
    simp [lineChars_cons hn (hnot _), lineChars, extendFirst]
  | feed cs ih => simp [lineChars, ih]
  | returnFeed cs ih => simp [lineChars, ih]
  | other d cs hd hr' ih =>
    have hhead : ∀ more, d = '\r' → (cs ++ c :: more).head? ≠ some '\n' := fun more hd' =>
      head?_append_of_head? (hr' hd') (by simpa using hn)
    rw [List.cons_append, List.cons_append, lineChars_cons hd (hhead ['\n']),
      lineChars_cons hd (hhead []), ih]

theorem not_mem_of_mem_lineChars {line : List Char} (h : line ∈ lineChars cs) : '\n' ∉ line := by
  induction cs using induction_lineChars generalizing line with
  | nil => cases h
  | feed cs ih | returnFeed cs ih =>
    rw [lineChars] at h
    rcases List.mem_cons.1 h with rfl | h
    · exact List.not_mem_nil
    · exact ih h
  | other c cs hc hr ih =>
    rw [lineChars_cons hc hr] at h
    cases hlines : lineChars cs with
    | nil =>
      rw [hlines, extendFirst, List.mem_singleton] at h
      simp [h, hc.symm]
    | cons first rest =>
      rw [hlines] at h ih
      rcases List.mem_cons.1 h with rfl | h
      · simp [hc.symm, ih (.head rest)]
      · exact ih (.tail first h)

theorem lineChars_of_not_mem (hne : cs ≠ []) (h : '\n' ∉ cs) : lineChars cs = [cs] := by
  induction cs with
  | nil => exact absurd rfl hne
  | cons c cs ih =>
    rw [List.mem_cons, not_or] at h
    rw [lineChars_cons (Ne.symm h.1)]
    · by_cases hcs : cs = []
      · rw [hcs]; rfl
      · rw [ih hcs h.2]; rfl
    · exact fun _ hhead => h.2 (List.mem_of_mem_head? hhead)

/-- A single line with a line feed behind it loses at most a carriage return. -/
theorem lineChars_concat_feed (h : '\n' ∉ cs) :
    lineChars (cs ++ ['\n']) = [cs] ∨
      ∃ ds, cs = ds ++ ['\r'] ∧ lineChars (cs ++ ['\n']) = [ds] := by
  induction cs with
  | nil => exact .inl rfl
  | cons c cs ih =>
    rw [List.mem_cons, not_or] at h
    by_cases hreturn : c = '\r' ∧ cs = []
    · obtain ⟨rfl, rfl⟩ := hreturn
      exact .inr ⟨[], rfl, rfl⟩
    · have hhead : c = '\r' → (cs ++ ['\n']).head? ≠ some '\n' := by
        intro hc hhead
        cases cs with
        | nil => exact hreturn ⟨hc, rfl⟩
        | cons d cs => exact h.2 (by rw [← Option.some.inj hhead]; exact .head cs)
      rw [List.cons_append, lineChars_cons (Ne.symm h.1) hhead]
      rcases ih h.2 with hline | ⟨ds, rfl, hline⟩ <;> rw [hline]
      · exact .inl rfl
      · exact .inr ⟨c :: ds, rfl, rfl⟩

/-! ### Lines of texts -/

theorem lines_append_break (a b : String) : lines (a ++ "\n" ++ b) = linesAbove a ++ lines b := by
  simp only [lines, linesAbove, String.toList_append, ← List.map_append, List.append_assoc]
  exact congrArg _ (lineChars_append_break a.toList b.toList)

theorem linesAbove_append_break (a b : String) :
    linesAbove (a ++ "\n" ++ b) = linesAbove a ++ linesAbove b := by
  rw [linesAbove, String.append_assoc, lines_append_break, linesAbove, linesAbove]

theorem Ended.linesAbove_eq {s : String} (h : Ended s) : linesAbove s = lines s := by
  obtain ⟨cs, c, hcs, hc⟩ := h.exists_last
  have hbreak := @lineChars_concat_break cs c (by rintro rfl; cases hc) (by rintro rfl; cases hc)
  simp only [linesAbove, lines, String.toList_append, hcs]
  rw [List.append_assoc]
  exact congrArg _ hbreak

theorem lines_of_unbroken {s : String} (hne : s ≠ "") (h : '\n' ∉ s.toList) : lines s = [s] := by
  rw [lines, lineChars_of_not_mem (mt String.toList_eq_nil_iff.1 hne) h]
  simp

theorem unbroken_of_mem_lines {s line : String} (h : line ∈ lines s) : '\n' ∉ line.toList := by
  obtain ⟨cs, hcs, rfl⟩ := List.mem_map.1 h
  rw [String.toList_ofList]
  exact not_mem_of_mem_lineChars hcs

theorem unlines_cons (p : String) (h : ps ≠ []) :
    unlines (p :: ps) = p ++ "\n" ++ unlines ps := String.intercalate_cons_of_ne_nil h

theorem unlines_append {qs : List String} (hp : ps ≠ []) (hq : qs ≠ []) :
    unlines (ps ++ qs) = unlines ps ++ "\n" ++ unlines qs :=
  String.intercalate_append_of_ne_nil hp hq

@[simp]
theorem unlines_singleton (p : String) : unlines [p] = p := String.intercalate_singleton

theorem lines_unlines_concat (ps : List String) (last : String) :
    lines (unlines (ps ++ [last])) = ps.flatMap linesAbove ++ lines last := by
  induction ps with
  | nil => simp
  | cons p ps ih =>
    rw [List.cons_append, unlines_cons p (by simp), lines_append_break, ih, List.flatMap_cons,
      List.append_assoc]

theorem lines_unlines (h : ∀ p ∈ ps, Ended p) : lines (unlines ps) = ps.flatMap lines := by
  induction ps with
  | nil => simp [unlines, lines, lineChars]
  | cons p rest ih =>
    by_cases hrest : rest = []
    · simp [hrest]
    · rw [unlines_cons p hrest, lines_append_break, (h p (.head rest)).linesAbove_eq,
        ih fun q hq => h q (.tail p hq), List.flatMap_cons]

end PacketC.Text
