import PacketC.Proofs.Lower.Reachable

/-! The names of temporaries. Nothing keeps a name of the program from being handed out, but a name
that is handed out has one of a few shapes: a hint and a number, or a hint, the number of an
expression and one more number. What is declared under a name that does not end in an underscore and
a number is never captured. -/

namespace PacketC

namespace Lower

open NameSupply

/-- The shapes of the names that lowering `p` hands out. -/
inductive Minted (p : Program) : String → Prop
  | once {hint : String} (h : Hint p hint) (n : Nat) : Minted p (numbered hint n)
  | twice {hint : String} (h : Hint p hint) (id n : Nat) :
      Minted p (numbered (numbered hint id) n)

variable {p : Program}

/-- The name ends in an underscore and a number. -/
def endsInNumber (x : String) : Bool :=
  let back := x.toList.reverse
  !(back.takeWhile Char.isDigit).isEmpty && (back.dropWhile Char.isDigit).head? == some '_'

theorem endsInNumber_numbered (stem : String) (n : Nat) :
    endsInNumber (numbered stem n) = true := by
  have hback : (numbered stem n).toList.reverse =
      (Nat.toDigits 10 n).reverse ++ '_' :: stem.toList.reverse := by simp [numbered, joined]
  have hdigits : ∀ c ∈ (Nat.toDigits 10 n).reverse, c.isDigit = true := fun c hc =>
    Nat.isDigit_of_mem_toDigits (by decide) (by decide) (List.mem_reverse.1 hc)
  rw [endsInNumber, hback]
  rw [List.takeWhile_append_of_pos hdigits, List.dropWhile_append_of_pos hdigits]
  simp [Nat.toDigits_ne_nil]

theorem Minted.endsInNumber {x : String} (h : Minted p x) : endsInNumber x = true := by
  cases h with
  | once _ n => exact endsInNumber_numbered _ n
  | twice _ id n => exact endsInNumber_numbered _ n

theorem joined_text (hint : String) (id : ExprId) :
    joined hint id.text = numbered hint id.index := by
  simp [numbered, Handle.text, Arena.label]

theorem minted_fresh {hint : String} (h : Hint p hint) {s : NameSupply}
    (hs : ∀ x ∈ s.used, Minted p x) : ∀ x ∈ (s.fresh hint).2.used, Minted p x := by
  intro x hx
  rcases List.mem_cons.1 hx with rfl | hx
  · exact .once h _
  · exact hs x hx

theorem minted_named {hint : String} (h : Hint p hint) (id : ExprId) {s : NameSupply}
    (hs : ∀ x ∈ s.used, Minted p x) : ∀ x ∈ (s.named hint id.text).2.used, Minted p x := by
  cases hlookup : s.memo.lookup (hint, id.text) with
  | some y => simpa only [NameSupply.named, hlookup] using hs
  | none =>
    simp only [NameSupply.named, hlookup, joined_text]
    split
    · intro x hx
      rcases List.mem_cons.1 hx with rfl | hx
      · exact .twice h _ _
      · exact hs x hx
    · intro x hx
      rcases List.mem_cons.1 hx with rfl | hx
      · exact .once h _
      · exact hs x hx

theorem upkeep_minted (p : Program) (marks : ExprId → Prop) :
    Upkeep p marks fun m m' => (∀ x ∈ m.names.used, Minted p x) →
      ∀ x ∈ m'.names.used, Minted p x where
  refl _ h := h
  trans h k := k ∘ h
  note _ _ h := h
  fresh hint _ h := minted_fresh hint h
  named hint id _ h := minted_named hint id h
  mark _ _ h := h

end Lower

namespace Session

open Lower

theorem minted_of_used (p : Program) (calls : List (Task × Option BlockId)) {s : Session}
    (h : ∀ x ∈ s.names.used, Minted p x) : ∀ x ∈ (s.after p calls).names.used, Minted p x := by
  induction calls generalizing s with
  | nil => exact h
  | cons call rest ih =>
    obtain ⟨t, block⟩ := call
    refine ih ?_
    let env : Env := s.env p block
    have hkeep := action_upkeep (upkeep_minted env.program _) t s.initial
    obtain ⟨ds, hafter⟩ := t.exists_lower_snd s p block
    rw [hafter]
    exact hkeep h

/-- Whatever calls are made, a name that is handed out has one of the shapes, and is the name of no
declaration, unless that ends in an underscore and a number. -/
theorem used_ne_declared (config : Config) (p : Program) (calls : List (Task × Option BlockId))
    {x : String} (hx : ((start config).after p calls).names.isUsed x = true) :
    Minted p x ∧ ∀ d ∈ p.decls, endsInNumber d.name = false → x ≠ d.name := by
  have hminted : Minted p x :=
    minted_of_used p calls (List.forall_mem_nil _) x (List.contains_iff_mem.1 hx)
  refine ⟨hminted, fun d _ hname => ?_⟩
  rintro rfl
  rw [hminted.endsInNumber] at hname
  cases hname

/-- Two variables of 16 bits, one of them with the name of a temporary. -/
def clash : Program where
  exprs := #[.declared 0 (.bits 16 false) "var_1" 0, .declared 1 (.bits 16 false) "total" 1,
    .number 2 16 5]
  decls := #[⟨"var_1", .var (.bits 16 false) none⟩, ⟨"total", .var (.bits 16 false) none⟩]

/-- Both variables are assigned to. -/
def clashCalls : List (Task × Option BlockId) :=
  [(.stmt (.assign ⟨0⟩ ⟨2⟩), none), (.stmt (.assign ⟨1⟩ ⟨2⟩), none)]

theorem clash_spares : ((start .standard).after clash clashCalls).names.used = ["var_2", "var_1"] ∧
    endsInNumber "total" = false ∧ ∀ x ∈ ["var_2", "var_1"], Minted clash x ∧ x ≠ "total" := by
  have hmem : ⟨"total", .var (.bits 16 false) none⟩ ∈ clash.decls := by simp [clash]
  refine ⟨rfl, rfl, fun x hx => ?_⟩
  have hused : ((start .standard).after clash clashCalls).names.isUsed x = true :=
    List.contains_iff_mem.2 hx
  obtain ⟨hminted, hne⟩ := used_ne_declared .standard clash clashCalls hused
  exact ⟨hminted, hne _ hmem rfl⟩

/-- The temporary of the first assignment captures the variable that is assigned to. -/
theorem clash_captures : clash.validate = .ok () ∧
    ⟨"var_1", .var (.bits 16 false) none⟩ ∈ clash.decls ∧
    ((start .standard).after clash clashCalls).names.isUsed "var_1" = true ∧
    ((start .standard).lowerStatement clash (.assign ⟨0⟩ ⟨2⟩) none).1.toOption.map Fragment.text =
      some "uint16_t var_1 = (uint16_t)5;\nvar_1 = var_1;" :=
  ⟨rfl, by simp [clash], rfl, rfl⟩

end Session

end PacketC
