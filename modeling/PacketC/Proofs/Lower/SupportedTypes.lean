import PacketC.Lower.TypeText

/-! The types that have a text in the target. Any other type leaves an error. -/

namespace PacketC

/-- The types that have a text in the target. -/
inductive Ty.Supported (s : TypeScope) : Ty → Prop
  | void : Supported s .void
  | bool : Supported s .bool
  | bits (width : UInt32) (signed : Bool) : Supported s (.bits width signed)
  | varbits (width : UInt32) : Supported s (.varbits width)
  | name {id : TypeId} {t : TypeDecl} (h : s.program.typeDecl id = .ok t) : Supported s (.name id)
  | external {id : TypeId} {t : TypeDecl} (h : s.program.typeDecl id = .ok t) :
      Supported s (.external id)
  | struct {id : TypeId} {t : TypeDecl} (h : s.program.typeDecl id = .ok t) :
      Supported s (.struct id)
  | enum {id : TypeId} {t : TypeDecl} (h : s.program.typeDecl id = .ok t)
      (he : t.isEnumLike = true) : Supported s (.enum id)
  | error {id : TypeId} {t : TypeDecl} (h : s.program.typeDecl id = .ok t)
      (he : t.isEnumLike = true) : Supported s (.error id)
  /-- A type that goes by the name of its first argument, … -/
  | named {base : TypeId} {t : TypeDecl} {arg : Ty} {rest : List Ty} {bare : String}
      (h : s.program.typeDecl base = .ok t) (ha : s.config.isArgTyped t.name = true)
      (hn : s.program.typeName? arg = some bare) : Supported s (.specialized base (arg :: rest))
  /-- … or by its text, … -/
  | spelled {base : TypeId} {t : TypeDecl} {arg : Ty} {rest : List Ty}
      (h : s.program.typeDecl base = .ok t) (ha : s.config.isArgTyped t.name = true)
      (hs : Supported s arg) : Supported s (.specialized base (arg :: rest))
  /-- … and one with a single argument that is part of its name. -/
  | single {base : TypeId} {t : TypeDecl} {arg : Ty} (h : s.program.typeDecl base = .ok t)
      (ha : s.config.isArgTyped t.name = false) (hs : Supported s arg) :
      Supported s (.specialized base [arg])

namespace Ty

theorem exists_error_of_unknownText (ty : Ty) (reason : String) :
    ∃ d ∈ (unknownText ty reason).notes, d.severity = .error := ⟨_, .head _, rfl⟩

theorem exists_error_of_enumText {s : TypeScope} {ty : Ty} {id : TypeId}
    (h : ∀ t, s.program.typeDecl id = .ok t → t.isEnumLike = false) :
    ∃ d ∈ (enumText s ty id).notes, d.severity = .error := by
  unfold enumText
  split
  · exact exists_error_of_unknownText ..
  · rename_i t ht
    have hlike := h t ht
    have hnone : t.cName? = none := by
      unfold TypeDecl.isEnumLike at hlike
      unfold TypeDecl.cName?
      split at hlike <;> simp_all
    rw [hnone]
    exact exists_error_of_unknownText ..

/-- A type without a text leaves an error. -/
theorem exists_error_of_not_supported {s : TypeScope} (form : TypeForm) :
    ∀ ty : Ty, ¬ty.Supported s → ∃ d ∈ (ty.render s form).notes, d.severity = .error
  | .void, h => (h .void).elim
  | .bool, h => (h .bool).elim
  | .bits w signed, h => (h (.bits w signed)).elim
  | .varbits w, h => (h (.varbits w)).elim
  | .enum id, h => by
    rw [render]
    exact exists_error_of_enumText fun t ht => by simpa using fun he => h (.enum ht he)
  | .error id, h => by
    rw [render]
    exact exists_error_of_enumText fun t ht => by simpa using fun he => h (.error ht he)
  | .name id, h => by
    rw [render, nameText]
    split
    · exact exists_error_of_unknownText ..
    · rename_i t ht
      exact (h (.name ht)).elim
  | .external id, h => by
    rw [render]
    split
    · exact exists_error_of_unknownText ..
    · rename_i t ht
      exact (h (.external ht)).elim
  | .struct id, h => by
    rw [render]
    split
    · exact exists_error_of_unknownText ..
    · rename_i t ht
      exact (h (.struct ht)).elim
  | .specialized base args, h => by
    rw [render.eq_def]
    dsimp only
    split
    · exact exists_error_of_unknownText ..
    · rename_i t ht
      split
      · rename_i hargTyped
        split
        · exact exists_error_of_unknownText ..
        · rename_i arg rest
          split
          · rename_i bare hbare
            exact (h (.named ht hargTyped hbare)).elim
          · exact exists_error_of_not_supported form arg fun hs => h (.spelled ht hargTyped hs)
      · rename_i hargTyped
        split
        · exact ⟨_, .head _, rfl⟩
        · rename_i arg
          have hplain : s.config.isArgTyped t.name = false := by simpa using hargTyped
          exact exists_error_of_not_supported form arg fun hs => h (.single ht hplain hs)
        · exact ⟨_, .head _, rfl⟩
  | .infInt, _ => exists_error_of_unknownText ..
  | .string, _ => exists_error_of_unknownText ..
  | .header _, _ => exists_error_of_unknownText ..
  | .var _, _ => exists_error_of_unknownText ..
  | .tuple _, _ => exists_error_of_unknownText ..

end Ty

end PacketC
