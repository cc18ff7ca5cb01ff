import PacketC.Proofs.Text.Ink

/-! Pieces of code one below the other. Stacking leaves nothing for another stacking to do, so it
does not matter in which groups the pieces are put together. It keeps the lines that are not blank,
each of them as it is. -/

namespace PacketC

open Text

variable {s : String} {ps : List String}

/-! ### Groups of pieces -/

theorem Text.ne_empty_of_isBlank (h : isBlank s = false) : s ≠ "" := by
  rintro rfl
  cases h

theorem Text.isBlank_unlines (hne : ps ≠ []) (h : ∀ p ∈ ps, isBlank p = false) :
    isBlank (unlines ps) = false := by
  cases ps with
  | nil => exact absurd rfl hne
  | cons p rest =>
    by_cases hrest : rest = []
    · rw [hrest, unlines_singleton]
      exact h p (.head rest)
    · rw [unlines_cons p hrest, isBlank_append, isBlank_append, h p (.head rest)]
      rfl

theorem Text.unfinished_dropFinalBreaks (s : String) : Unfinished (dropFinalBreaks s) := by
  have hhead := List.head?_dropWhile_not (· == '\n') s.toList.reverse
  rw [Unfinished, dropFinalBreaks, String.toList_ofList, List.getLast?_reverse]
  intro hbreak
  rw [hbreak] at hhead
  cases hhead

/-- The pieces that are left once line feeds at their ends and blank ones are gone. -/
def kept (ps : List String) : List String := (ps.map dropFinalBreaks).filter (!isBlank ·)

theorem stacked_eq_unlines (ps : List String) : stacked ps = unlines (kept ps) := rfl

theorem mem_kept {p : String} (h : p ∈ kept ps) : Unfinished p ∧ isBlank p = false := by
  obtain ⟨hmem, hblank⟩ := List.mem_filter.1 h
  obtain ⟨s, -, rfl⟩ := List.mem_map.1 hmem
  exact ⟨unfinished_dropFinalBreaks s, by simpa using hblank⟩

theorem kept_of_unfinished (h : ∀ p ∈ ps, Unfinished p) : kept ps = ps.filter (!isBlank ·) := by
  have hmap : ps.map dropFinalBreaks = ps :=
    (List.map_congr_left fun p hp => (h p hp).dropFinalBreaks).trans (List.map_id ps)
  rw [kept, hmap]

theorem isBlank_stacked_of_ne (h : kept ps ≠ []) : isBlank (stacked ps) = false :=
  isBlank_unlines h fun _ hp => (mem_kept hp).2

theorem unfinished_stacked (ps : List String) : Unfinished (stacked ps) := by
  have hkept : ∀ qs : List String, (∀ q ∈ qs, Unfinished q ∧ isBlank q = false) →
      Unfinished (unlines qs) := by
    intro qs h
    induction qs with
    | nil => simp [unlines, Unfinished]
    | cons q rest ih =>
      rw [List.forall_mem_cons] at h
      by_cases hrest : rest = []
      · rw [hrest, unlines_singleton]
        exact h.1.1
      · rw [unlines_cons q hrest]
        exact .append _ (ih h.2)
          (ne_empty_of_isBlank (isBlank_unlines hrest fun p hp => (h.2 p hp).2))
  exact hkept _ fun _ => mem_kept

theorem stacked_append (xs ys : List String) :
    stacked (xs ++ ys) = stacked [stacked xs, stacked ys] := by
  have hgroups : kept [stacked xs, stacked ys] = [stacked xs, stacked ys].filter (!isBlank ·) :=
    kept_of_unfinished (by simp [unfinished_stacked])
  have hsplit : kept (xs ++ ys) = kept xs ++ kept ys := by
    rw [kept, List.map_append, List.filter_append]
    rfl
  have hempty : ∀ zs, kept zs = [] → isBlank (stacked zs) = true := by
    intro zs h
    rw [stacked_eq_unlines, h]
    rfl
  rw [stacked_eq_unlines, stacked_eq_unlines [_, _], hsplit, hgroups]
  by_cases hx : kept xs = []
  · by_cases hy : kept ys = []
    · simp [hx, hy, hempty]
    · simp [hx, hempty, isBlank_stacked_of_ne hy]
      rfl
  · by_cases hy : kept ys = []
    · simp [hy, hempty, isBlank_stacked_of_ne hx]
      rfl
    · rw [unlines_append hx hy]
      simp [isBlank_stacked_of_ne hx, isBlank_stacked_of_ne hy, unlines]
      rfl

theorem stacked_isEmpty_iff : (stacked ps).isEmpty = true ↔ ps.flatMap ink = [] := by
  rw [String.isEmpty_iff, ← ink_reading.stacked]
  refine ⟨fun h => by rw [h]; rfl, fun h => ?_⟩
  have hkept : kept ps = [] := Classical.not_not.1 fun hne =>
    Bool.false_ne_true ((isBlank_stacked_of_ne hne).symm.trans (ink_eq_nil_iff.1 h))
  rw [stacked_eq_unlines, hkept]
  rfl

/-! ### Lines that are not blank -/

def Text.writtenLines (s : String) : List String := (lines s).filter (!isBlank ·)

theorem Text.writtenLines_of_isBlank (s : String) (h : isBlank s = true) : writtenLines s = [] := by
  refine List.filter_eq_nil_iff.2 fun line hline => ?_
  have hink := List.flatMap_eq_nil_iff.1 ((ink_lines s).trans (ink_eq_nil_iff.2 h)) line hline
  simp [ink_eq_nil_iff.1 hink]

/-- A line feed behind a text ends its last line or adds an empty one. -/
theorem Text.writtenLines_break (h : '\r' ∉ s.toList) :
    writtenLines (s ++ "\n") = writtenLines s := by
  rcases List.eq_nil_or_concat s.toList with hs | ⟨cs, c, hs⟩
  · rw [String.toList_eq_nil_iff.1 hs]
    rfl
  · rw [List.concat_eq_append] at hs
    by_cases hc : c = '\n'
    · have hs' : s = String.ofList cs ++ "\n" := String.toList_injective (by simp [hs, hc])
      rw [hs', writtenLines, lines_append_break, List.filter_append]
      exact List.append_nil _
    · have hreturn : c ≠ '\r' := by
        rintro rfl
        exact h (by simp [hs])
      have hchars : lineChars (s ++ "\n").toList = lineChars s.toList := by
        rw [String.toList_append, hs, List.append_assoc]
        exact lineChars_concat_break cs hc hreturn
      rw [writtenLines, lines, hchars]
      rfl

theorem Text.writtenLines_below (h : '\r' ∉ s.toList) (b : String) :
    writtenLines (s ++ "\n" ++ b) = writtenLines s ++ writtenLines b := by
  rw [← writtenLines_break h, writtenLines, lines_append_break, List.filter_append]
  rfl

namespace Fragment

/-- It does not matter in which groups pieces are stacked, and the lines of a fragment are those of
its code. -/
theorem lines_eq_lines_render :
    (∀ xs ys : List String, stacked (xs ++ ys) = stacked [stacked xs, stacked ys]) ∧
      ∀ f : Fragment, (∀ p ∈ f.pieces, '\r' ∉ p.toList) →
        f.lines = (Text.lines f.render).filter fun s => !Text.isBlank s := by
  refine ⟨stacked_append, fun f h => ?_⟩
  have hdrop : ∀ p ∈ f.pieces, '\r' ∉ (dropFinalBreaks p).toList := by
    intro p hp hmem
    obtain ⟨n, hs⟩ := exists_finalBreaks p
    exact h p hp (by rw [hs, String.toList_append]; exact List.mem_append_left _ hmem)
  calc
    f.lines = f.pieces.flatMap writtenLines := List.filter_flatMap
    _ = writtenLines f.render :=
      (read_stacked writtenLines_of_isBlank fun p hp => writtenLines_below (hdrop p hp)).symm

/-- A declaration, and blank lines around and between two statements. -/
def spaced : Fragment :=
  ⟨.statements, ["uint32_t tmp_1;\n\n", " \n"], "\n  tmp_1 = key;\n\t\ndebug(tmp_1);\n", []⟩

theorem spaced_lines : (∀ p ∈ spaced.pieces, '\r' ∉ p.toList) ∧
    spaced.lines = (Text.lines spaced.render).filter fun s => !Text.isBlank s :=
  ⟨by decide, lines_eq_lines_render.2 spaced (by decide)⟩

/-- A carriage return at the end of a piece belongs to the break that follows it in the code. -/
example : lines ⟨.statements, ["a;\r"], "b;", []⟩ = ["a;\r", "b;"] ∧
    Text.lines (render ⟨.statements, ["a;\r"], "b;", []⟩) = ["a;", "b;"] := by decide

end Fragment

end PacketC
