import PacketC.Proofs.Lower.SupportedTypes
import PacketC.Session

/-! What is noted while a type is written. A type that has a text in the target leaves no note, and
every note of any other type is an error of formatting types. Nothing but the diagnostics changes,
and the text is a function of the program, the settings, the aliases, the form and the type. -/

namespace PacketC

namespace Ty

variable {s : TypeScope}

/-! ### Types that have a text -/

theorem enumText_eq_plain {ty : Ty} {id : TypeId} {t : TypeDecl}
    (h : s.program.typeDecl id = .ok t) (he : t.isEnumLike = true) :
    ∃ text, enumText s ty id = .plain text := by
  obtain ⟨cName, hc⟩ : ∃ cName, t.cName? = some cName := by
    unfold TypeDecl.isEnumLike at he
    unfold TypeDecl.cName?
    split at he
    · exact ⟨_, rfl⟩
    · exact ⟨_, rfl⟩
    · cases he
  refine ⟨"enum " ++ cName, ?_⟩
  rw [enumText, h]
  dsimp only
  rw [hc]

theorem nameText_eq_plain (form : TypeForm) (ty : Ty) {id : TypeId} {t : TypeDecl}
    (h : s.program.typeDecl id = .ok t) : ∃ text, nameText s form ty id = .plain text := by
  rw [nameText, h]
  dsimp only
  split <;> exact ⟨_, rfl⟩

/-- A type that has a text leaves no note. -/
theorem notes_of_supported (form : TypeForm) {ty : Ty} (h : ty.Supported s) :
    (ty.render s form).notes = [] := by
  induction h with
  | void | bool | bits | varbits => rw [render]; rfl
  | name h =>
    obtain ⟨text, htext⟩ := nameText_eq_plain form (.name _) h
    rw [render, htext]
    rfl
  | enum h he | error h he =>
    obtain ⟨text, htext⟩ := enumText_eq_plain h he
    rw [render, htext]
    rfl
  | external h | struct h => rw [render, h]; rfl
  | named h ha hn =>
    rw [render.eq_def]
    simp only [h, ha, hn, if_true]
    rfl
  | @spelled base t arg rest h ha hs ih =>
    rw [render.eq_def]
    simp only [h, ha, if_true]
    split
    · rfl
    · exact ih
  | single h ha hs ih =>
    rw [render.eq_def]
    simp only [h, ha, Bool.false_eq_true, if_false]
    exact ih

/-! ### Notes of the other types -/

/-- An error of formatting types. -/
def IsTextError (d : Diagnostic) : Prop := d.severity = .error ∧ d.stage = textStage

theorem isTextError_plain (text : String) : ∀ d ∈ (Noted.plain text).notes, IsTextError d := by
  intro d hd
  cases hd

theorem isTextError_unknownText (ty : Ty) (reason : String) :
    ∀ d ∈ (unknownText ty reason).notes, IsTextError d := by
  intro d hd
  cases List.mem_singleton.1 hd
  exact ⟨rfl, rfl⟩

theorem isTextError_enumText (ty : Ty) (id : TypeId) :
    ∀ d ∈ (enumText s ty id).notes, IsTextError d := by
  unfold enumText
  split
  · exact isTextError_unknownText _ _
  · split
    · exact isTextError_plain _
    · exact isTextError_unknownText _ _

/-- The induction goes into the first argument, as the text does. -/
theorem isTextError_of_mem_notes (form : TypeForm) (ty : Ty) :
    ∀ d ∈ (ty.render s form).notes, IsTextError d := by
  fun_induction render s form ty with
  | case1 | case2 | case3 | case4 | case9 | case11 | case14 => exact isTextError_plain _
  | case5 id | case6 id => exact isTextError_enumText _ id
  | case7 id =>
    unfold nameText
    split
    · exact isTextError_unknownText _ _
    · split <;> exact isTextError_plain _
  | case15 _ _ _ _ _ _ _ ih => exact ih
  | case17 _ _ _ _ _ _ ih => exact ih
  | case16 => exact List.forall_mem_cons.2 ⟨⟨rfl, rfl⟩, isTextError_unknownText _ _⟩
  | case18 _ _ _ _ _ _ _ _ ih => exact List.forall_mem_cons.2 ⟨⟨rfl, rfl⟩, ih⟩
  | _ => exact isTextError_unknownText _ _

/-- A type leaves no note exactly if it has a text. -/
theorem notes_eq_nil_iff (form : TypeForm) {ty : Ty} :
    (ty.render s form).notes = [] ↔ ty.Supported s := by
  refine ⟨fun hnil => Classical.byContradiction fun hty => ?_, notes_of_supported form⟩
  obtain ⟨d, hd, -⟩ := exists_error_of_not_supported form ty hty
  rw [hnil] at hd
  cases hd

end Ty

/-- Whatever the program, the settings and the aliases are, writing a type notes nothing if the type
has a text in the target, and else at least one diagnostic, each an error of formatting types.
Nothing else in the session changes, and sessions with the same settings and aliases write the same
text. It is the same where a type is written in the course of lowering. -/
theorem Session.typeText_diagnoses_exactly (s : Session) (p : Program) (ty : Ty)
    (form : TypeForm) : ∃ text notes, s.typeText p ty form = (text, { s with memory :=
        { s.memory with diagnostics := s.memory.diagnostics ++ notes } }) ∧
      (notes = [] ↔ ty.Supported (s.scope p)) ∧
      (∀ d ∈ notes, d.severity = .error ∧ d.stage = "formatting type") ∧
      (∀ s' : Session, s'.config = s.config → s'.aliases = s.aliases →
        (s'.typeText p ty form).1 = text) ∧
      ∀ (block : Option BlockId) (state : Lower.State),
        Lower.typeTextIn form ty (s.env p block) state = (.ok text, { state with memory :=
          { state.memory with diagnostics := state.memory.diagnostics ++ notes } }) := by
  refine ⟨(ty.render (s.scope p) form).text, (ty.render (s.scope p) form).notes, rfl,
    Ty.notes_eq_nil_iff form, Ty.isTextError_of_mem_notes form ty, fun s' hc ha => ?_,
    fun _ _ => rfl⟩
  have hscope : s'.scope p = s.scope p := by rw [scope, scope, hc, ha]
  rw [typeText, hscope]

end PacketC
