import PacketC.Lower.Statement
import PacketC.Proofs.Text.Lines

/-! Readings of a text that go line by line and take no notice of white space around the lines.
Stacking pieces of code, putting them into bodies and moving them to the right makes no difference
to such a reading: that of the whole is the readings of the pieces, one after the other. -/

namespace PacketC

variable {γ : Type} {f : String → List γ} {xs : List γ}

open Text

/-! ### Texts one below the other -/

theorem Text.read_unlines {ps : List String} (hempty : f "" = [])
    (hbelow : ∀ p ∈ ps, ∀ b, f (p ++ "\n" ++ b) = f p ++ f b) : f (unlines ps) = ps.flatMap f := by
  induction ps with
  | nil => exact hempty
  | cons p rest ih =>
    rw [List.forall_mem_cons] at hbelow
    by_cases hrest : rest = []
    · simp [hrest]
    · rw [unlines_cons p hrest, hbelow.1, ih hbelow.2, List.flatMap_cons]

theorem Text.read_dropFinalBreaks {s : String} (hblank : ∀ s, isBlank s = true → f s = [])
    (hbelow : ∀ b, f (dropFinalBreaks s ++ "\n" ++ b) = f (dropFinalBreaks s) ++ f b) :
    f (dropFinalBreaks s) = f s := by
  obtain ⟨n, hs⟩ := exists_finalBreaks s
  cases n with
  | zero => exact congrArg f (hs.trans String.append_empty).symm
  | succ n =>
    have hread := hbelow (breaks n)
    rw [String.append_assoc, ← breaks_succ, ← hs, hblank _ (isBlank_breaks n), List.append_nil]
      at hread
    exact hread.symm

theorem read_stacked {ps : List String} (hblank : ∀ s, isBlank s = true → f s = [])
    (hbelow : ∀ p ∈ ps, ∀ b, f (dropFinalBreaks p ++ "\n" ++ b) = f (dropFinalBreaks p) ++ f b) :
    f (stacked ps) = ps.flatMap f := by
  have hpieces : ∀ p ∈ ps.map dropFinalBreaks, ∀ b, f (p ++ "\n" ++ b) = f p ++ f b :=
    List.forall_mem_map.2 hbelow
  rw [stacked, read_unlines (hblank "" rfl) fun p hp => hpieces p (List.mem_filter.1 hp).1,
    flatMap_nonblank hblank, List.flatMap_map, List.flatMap_def, List.flatMap_def,
    List.map_congr_left fun p hp => read_dropFinalBreaks hblank (hbelow p hp)]

/-- A reading takes no notice of white space in front of a line, and goes line by line. -/
structure Text.Reading (f : String → List γ) : Prop where
  empty : f "" = []
  margin : ∀ {a : String}, isBlank a = true → ∀ b, f (a ++ b) = f b
  below : ∀ a b, f (a ++ "\n" ++ b) = f a ++ f b
  lines : ∀ s, (lines s).flatMap f = f s

namespace Text.Reading

theorem blank (h : Reading f) (s : String) (hs : isBlank s = true) : f s = [] := by
  rw [← String.append_empty (s := s), h.margin hs, h.empty]

theorem stacked (h : Reading f) (ps : List String) : f (stacked ps) = ps.flatMap f :=
  read_stacked h.blank fun _ _ => h.below _

end Text.Reading

/-! ### Layouts -/

namespace Layout

theorem linesOf_eq (ss : List String) (l : Layout) :
    l.linesOf ss = { l with lines := l.lines ++ ss.map (l.margin ++ ·) } := by
  induction ss generalizing l with
  | nil => simp [Layout.linesOf]
  | cons s ss ih =>
    have hline : l.linesOf (s :: ss) = (l.line s).linesOf ss := rfl
    rw [hline, ih]
    simp [Layout.line, Layout.margin]

theorem isBlank_unit (style : Indentation) : isBlank style.unit = true := by
  have hblank : isBlankChar ' ' = true := rfl
  cases style with
  | tabs => decide
  | spaces count => simp [Indentation.unit, isBlank, hblank]

theorem isBlank_margin {l : Layout} (h : isBlank l.unit = true) : isBlank l.margin = true := by
  rw [isBlank_iff, margin, String.toList_join]
  intro c hc
  obtain ⟨unit, hunit, hc⟩ := List.mem_flatMap.1 hc
  rw [List.eq_of_mem_replicate hunit] at hc
  exact isBlank_iff.1 h c hc

/-- What is read of the lines of a layout. -/
structure Reads (f : String → List γ) (l : Layout) (xs : List γ) : Prop where
  reading : Reading f
  unit : isBlank l.unit = true
  lines : l.lines.flatMap f = xs

namespace Reads

variable {l : Layout}

theorem empty (h : Reading f) (style : Indentation) : Reads f (.empty style) [] :=
  ⟨h, isBlank_unit style, rfl⟩

theorem indent (h : l.Reads f xs) : l.indent.Reads f xs := ⟨h.reading, h.unit, h.lines⟩

theorem dedent (h : l.Reads f xs) : l.dedent.Reads f xs := ⟨h.reading, h.unit, h.lines⟩

theorem line (h : l.Reads f xs) (s : String) : (l.line s).Reads f (xs ++ f s) :=
  ⟨h.reading, h.unit, by simp [Layout.line, h.reading.margin (isBlank_margin h.unit), h.lines]⟩

theorem text (h : l.Reads f xs) (s : String) : (l.text s).Reads f (xs ++ f s) := by
  refine ⟨h.reading, ?_, ?_⟩ <;> rw [Layout.text, linesOf_eq]
  · exact h.unit
  · simp only [List.flatMap_append, List.flatMap_map, h.lines,
      h.reading.margin (isBlank_margin h.unit), flatMap_nonblank h.reading.blank,
      h.reading.lines]

theorem finish (h : l.Reads f xs) : f l.finish = xs :=
  (read_unlines h.reading.empty fun _ _ => h.reading.below _).trans h.lines

end Reads

end Layout

/-! ### Statements -/

namespace Text.Reading

open Lower

theorem condText (h : Reading f) (style : Indentation) (c t e : String) :
    f (condText style c t e) =
      f s!"if( {c} ) \x7b" ++ f t ++ f "\x7d else \x7b" ++ f e ++ f "\x7d" :=
  ((((((Layout.Reads.empty h style).line _).indent.text t).dedent.line _).indent.text e).dedent.line
    _).finish

/-- What is read of one arm of a switch. -/
def arm (f : String → List γ) (a : Arm) : List γ := f a.head ++ f a.body ++ f "break;"

theorem arms {l : Layout} (h : l.Reads f xs) (arms : List Arm) :
    (arms.foldl Arm.layout l).Reads f (xs ++ arms.flatMap (arm f)) := by
  induction arms generalizing l xs with
  | nil => simpa using h
  | cons a arms ih =>
    have harm := ih (((h.line a.head).indent.text a.body).line "break;").dedent
    simpa [Arm.layout, arm] using harm

theorem switchText (h : Reading f) (style : Indentation) (c : String) (arms : List Arm) :
    f (switchText style c arms) = f (s!"switch({c})" ++ " \x7b") ++ arms.flatMap (arm f) ++
      (if arms.any fun a => a.label.isNone then [] else f "default: \x7b\x7d") ++ f "\x7d" := by
  have harms := Reading.arms
    ((Layout.Reads.empty h style).line (s!"switch({c})" ++ " \x7b")).indent arms
  rw [Lower.switchText, Layout.block, Layout.openBlock, Layout.closeBlock]
  dsimp only
  split
  · rw [(harms.dedent.line "\x7d").finish]
    simp
  · rw [((harms.line "default: \x7b\x7d").dedent.line "\x7d").finish]
    simp

end Text.Reading

end PacketC
