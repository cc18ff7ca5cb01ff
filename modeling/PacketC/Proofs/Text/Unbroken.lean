import PacketC.Proofs.Code.Text
import PacketC.Proofs.Text.Lines
import PacketC.Target.Convention

/-! Texts without line feeds. What is put together from such texts and from numbers is one. -/

namespace PacketC.Text

/-- There is no line feed in the text. -/
def Unbroken (s : String) : Prop := s.toList.all (· != '\n') = true

namespace Unbroken

variable {a b x : String}

theorem not_mem (h : Unbroken a) : '\n' ∉ a.toList := fun hmem => by
  simpa using List.all_eq_true.1 h '\n' hmem

theorem of_not_mem (h : '\n' ∉ a.toList) : Unbroken a :=
  List.all_eq_true.2 fun c hc => by
    simp only [bne_iff_ne]
    rintro rfl
    exact h hc

theorem unfinished (h : Unbroken a) : Unfinished a := fun hlast =>
  h.not_mem (List.mem_of_getLast? hlast)

theorem append (ha : Unbroken a) (hb : Unbroken b) : Unbroken (a ++ b) := by
  rw [Unbroken, String.toList_append, List.all_append, ha, hb]
  rfl

/-- A text between two others. -/
theorem arg (ha : Unbroken a) (hx : Unbroken x) (hb : Unbroken b) : Unbroken (a ++ x ++ b) :=
  (ha.append hx).append hb

theorem join {parts : List String} (h : ∀ p ∈ parts, Unbroken p) :
    Unbroken (String.join parts) := by
  refine .of_not_mem fun hmem => ?_
  rw [String.toList_join, List.mem_flatMap] at hmem
  obtain ⟨p, hp, hmem⟩ := hmem
  exact (h p hp).not_mem hmem

theorem toString (n : Nat) : Unbroken (toString n) := Code.all_toString (by decide) n

/-! ### Replacements -/

theorem not_mem_replaceChars {c : Char} {pattern new cs : List Char} {skip : Nat} (hnew : c ∉ new)
    (hcs : c ∉ cs) : c ∉ replaceChars pattern new skip cs := by
  fun_induction replaceChars pattern new skip cs with
  | case1 => exact hcs
  | case2 skip d rest ih => exact ih fun hmem => hcs (.tail d hmem)
  | case3 d rest hprefix ih =>
    rw [List.mem_append, not_or]
    exact ⟨hnew, ih fun hmem => hcs (.tail d hmem)⟩
  | case4 d rest hprefix ih =>
    rw [List.mem_cons, not_or]
    exact ⟨fun heq => hcs (heq ▸ .head rest), ih fun hmem => hcs (.tail d hmem)⟩

theorem replace {pattern : String} (hx : Unbroken x) (ha : Unbroken a) :
    Unbroken (replace pattern x a) := by
  refine .of_not_mem ?_
  rw [Text.replace, String.toList_ofList]
  exact not_mem_replaceChars hx.not_mem ha.not_mem

theorem fill {types : List String} (ha : Unbroken a) (h : ∀ ty ∈ types, Unbroken ty) :
    Unbroken (Convention.fill a types) := by
  have hall : ∀ q ∈ types.zipIdx, Unbroken q.1 := fun q hq => h _ (List.fst_mem_of_mem_zipIdx hq)
  unfold Convention.fill
  generalize types.zipIdx = l at hall ⊢
  induction l generalizing a with
  | nil => exact ha
  | cons q l ih =>
    rw [List.forall_mem_cons] at hall
    exact ih (.replace hall.1 ha) hall.2

end Unbroken

end PacketC.Text
