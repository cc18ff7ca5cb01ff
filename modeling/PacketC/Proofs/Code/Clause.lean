import PacketC.Proofs.Code.Text

/-! Conjunctions of clauses. They are read as one term from the left, and it holds if each of them
does. -/

namespace PacketC.Code

/-- The first two texts can be joined beforehand. -/
theorem intercalate_join (sep x y : String) (ts : List String) :
    sep.intercalate (x :: y :: ts) = sep.intercalate ((x ++ sep ++ y) :: ts) := by
  cases ts with
  | nil => simp [String.intercalate_cons_cons]
  | cons t ts => simp only [String.intercalate_cons_cons, String.append_assoc]

/-- Texts that are joined in groups are joined altogether. -/
theorem intercalate_flatten (sep : String) {groups : List (List String)}
    (h : ∀ g ∈ groups, g ≠ []) :
    sep.intercalate (groups.map sep.intercalate) = sep.intercalate groups.flatten := by
  induction groups with
  | nil => rfl
  | cons g groups ih =>
    have ih := ih fun g hg => h g (.tail _ hg)
    cases groups with
    | nil => simp
    | cons g' groups =>
      have hrest : (g' :: groups).flatten ≠ [] := by simp [h g' (by simp)]
      rw [List.map_cons, String.intercalate_cons_of_ne_nil (by simp), ih,
        List.flatten_cons (l := g), String.intercalate_append_of_ne_nil (h g (.head _)) hrest]

/-- Where the term has a value, and that is the truth of the statement. -/
def Test (σ : Store) (e : Term) (P : Prop) : Prop := ∃ v, e.eval σ = some v ∧ (v ≠ 0 ↔ P)

variable {σ : Store} {P : Prop}

theorem Test.of_truth {e : Term} [Decidable P] (h : e.eval σ = some (truth P)) : Test σ e P :=
  ⟨_, h, by unfold truth; split <;> simp [*]⟩

/-- A text that is a test of the statement next to operators of a level below `n`. -/
def Says (n : Nat) (σ : Store) (text : String) (P : Prop) : Prop :=
  ∃ e, Clause n text e ∧ Test σ e P

theorem Says.land {x y : String} {Q : Prop} (hx : Says 2 σ x P) (hy : Says 3 σ y Q) :
    Says 2 σ (x ++ " && " ++ y) (P ∧ Q) := by
  have hand : Symbol " && " [Op.land.token] := by decide
  obtain ⟨a, ha, v, hv, hP⟩ := hx
  obtain ⟨b, hb, w, hw, hQ⟩ := hy
  refine ⟨_, .apply hand ha hb, ?_⟩
  rw [← hP, ← hQ]
  exact .of_truth (Term.eval_binary hv hw)

/-- A conjunction of tests is read from the left. -/
theorem says_conjunction {text : String} {texts : List String} {Ps : List Prop}
    (h : Says 2 σ text P) (hs : List.Forall₂ (Says 3 σ) texts Ps) :
    Says 2 σ (String.intercalate " && " (text :: texts)) (P ∧ ∀ Q ∈ Ps, Q) := by
  induction hs generalizing text P with
  | nil => simpa using h
  | cons hx _ ih =>
    rw [intercalate_join, List.forall_mem_cons, ← and_assoc]
    exact ih (h.land hx)

end PacketC.Code
