import PacketC.Proofs.Text.Reading

/-! Texts apart from white space. -/

namespace PacketC.Text

/-- The characters of a text that are not white space. -/
def ink (s : String) : List Char := s.toList.filter (!isBlankChar ·)

@[simp] theorem ink_append (a b : String) : ink (a ++ b) = ink a ++ ink b := by simp [ink]

theorem ink_eq_nil_iff {s : String} : ink s = [] ↔ isBlank s = true := by
  simp [ink, List.filter_eq_nil_iff, isBlank_iff]

theorem ink_lines (s : String) : (lines s).flatMap ink = ink s := by
  have hchars : ∀ cs, (lineChars cs).flatMap (·.filter (!isBlankChar ·)) =
      cs.filter (!isBlankChar ·) := by
    intro cs
    induction cs using induction_lineChars with
    | nil => rfl
    | feed cs ih => simpa [lineChars, show isBlankChar '\n' = true by decide] using ih
    | returnFeed cs ih =>
      simpa [lineChars, show isBlankChar '\n' = true by decide,
        show isBlankChar '\r' = true by decide] using ih
    | other c cs hc hr ih =>
      have hfirst : ∀ ls : List (List Char),
          (extendFirst c ls).flatMap (·.filter (!isBlankChar ·)) =
          [c].filter (!isBlankChar ·) ++ ls.flatMap (·.filter (!isBlankChar ·)) := by
        intro ls
        cases ls with
        | nil => simp [extendFirst]
        | cons line ls =>
          rw [extendFirst, List.flatMap_cons, List.flatMap_cons, ← List.append_assoc,
            ← List.filter_append, List.singleton_append]
      rw [lineChars_cons hc hr, hfirst, ih, ← List.filter_append, List.singleton_append]
  simpa [lines, ink, List.flatMap_map, Function.comp_def] using hchars s.toList

theorem ink_reading : Reading ink where
  empty := rfl
  margin h b := by rw [ink_append, ink_eq_nil_iff.2 h, List.nil_append]
  below a b := by
    have hbreak : ink "\n" = [] := by decide
    rw [ink_append, ink_append, hbreak, List.append_nil]
  lines := ink_lines

end PacketC.Text
