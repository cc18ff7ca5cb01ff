import PacketC.Proofs.Output.NameSupply
import PacketC.Proofs.Scope.Script
import PacketC.Proofs.Scope.Vocabulary

/-! One name of the supply, while expressions are lowered. The code in front of the statement
declares it before it uses it, and the code behind the statement uses it only if it is declared. A
name with an id is declared by the same code each time, so that code which is there already need not
be added again; a name without one is declared once, where it was handed out. -/

namespace PacketC

open Code

namespace Lower

/-! ### The declarations of names with an id -/

/-- The fields among the items of a digest. -/
def sentFields (p : Program) (items : List ExprId) : List PacketField :=
  items.filterMap fun item => do
    let e ← (p.expr item).toOption
    let ref ← e.fieldRef?
    (p.packetField ref).toOption

def constantCode (e : Expr) (name : String) : Option String :=
  match e.node, e.ty with
  | .constant value _, .bits width _ =>
    let items := (Literal.bytes value (byteCount width.toNat)).map fun b =>
      "0x" ++ Literal.byteDigits b
    some s!"uint8_t {name}[] = {Literal.braced items};"
  | _, _ => none

def argumentCode (p : Program) (e : Expr) (name : String) : Option String := do
  let ref ← e.fieldRef?
  let l ← (p.packetField ref).toOption
  match (Container.ofWidth l.width).bits? with
  | some unit => some s!"uint{unit}_t {name};"
  | none => some s!"uint8_t {name}[{l.bytes}];"

def digestCode (p : Program) (e : Expr) (name : String) : Option String := do
  let c ← match e.node with
    | .call c => some c
    | _ => none
  let type ← (Digest.typeName p c.typeArgs).toOption
  let args ← (Digest.arguments c.args).toOption
  let items ← (Digest.items p args.2).toOption
  return Text.unlines (Digest.additionLines name ⟨type, "", sentFields p items⟩)

/-- The declaration that an expression has for its name under a hint, the same each time. -/
def issue (p : Program) (hint : String) (id : ExprId) (name : String) : Option String := do
  let e ← (p.expr id).toOption
  if hint = "value" then argumentCode p e name
  else if hint = "digest" then digestCode p e name
  else constantCode e name

/-! ### What holds in between -/

/-- The name is declared in front of the statement. -/
def Declared (n : String) (s : State) : Prop := ∃ c ∈ s.emission.current.pre, Declares n c

/-- The code around the statement declares the name before it uses it, and once. -/
structure Ordered (n : String) (s : State) : Prop where
  pre : ∃ d, Scoped n false (pieces s.emission.current.pre) d
  post : ∀ c ∈ s.emission.current.post, Allowed n (Declared n s) c
  supply : ∃ done, s.memory.names.Records done

structure Inv (p : Program) (n : String) (s : State) : Prop extends Ordered n s where
  owned : Declared n s → n ∈ s.memory.names.used
  /-- A name with an id is declared as its expression says. -/
  tied : ∀ hint (id : ExprId), s.memory.names.memo.lookup (hint, id.text) = some n →
    ∀ c ∈ s.emission.current.pre, Declares n c → issue p hint id n = some c

/-- From one state to a later one: numbered names are handed out, and no frame but the innermost
changes. -/
structure Extends (s t : State) : Prop where
  names : s.memory.names.Extends t.memory.names
  outer : t.emission.outer = s.emission.outer
  numbered : (∀ x ∈ s.memory.names.used, Numbered x) → ∀ x ∈ t.memory.names.used, Numbered x

/-- What is declared stays so, and nobody else declares a name that was handed out for one use. -/
structure Step (n : String) (s t : State) : Prop where
  declared : Declared n s → Declared n t
  barred : n ∈ s.memory.names.used → (∀ key, s.memory.names.memo.lookup key ≠ some n) →
    Declared n t → Declared n s

/-- The name is part of no other name, and is not the name of a buffer. -/
structure Clear (n : String) (s : State) : Prop where
  others : ∀ x ∈ s.memory.names.used, x ≠ n → ¬ Mentions n x
  buffers : ∀ id : ExprId, s.memory.names.memo.lookup ("buffer", id.text) ≠ some n

/-- The condition holds where the name is declared on `D`, and wherever it is from then on. -/
def Known (D : Prop) (C : Prop → Prop) : Prop := ∀ D', (D → D') → C D'

namespace Known

variable {D D' : Prop} {C C' : Prop → Prop}

theorem here (h : Known D C) : C D := h D id

theorem mono (h : Known D C) (hD : D → D') : Known D' C := fun E hE => h E fun hd => hE (hD hd)

theorem imp (h : Known D C) (k : ∀ {w}, C w → C' w) : Known D C' := fun E hE => k (h E hE)

theorem and (h : Known D C) (k : Known D C') : Known D fun w => C w ∧ C' w := fun E hE =>
  ⟨h E hE, k E hE⟩

theorem allowed {n text : String} (h : Allowed n D text) : Known D (Allowed n · text) :=
  fun _ hD => h.mono hD

end Known

section Basics

variable {p : Program} {n : String} {s t u : State}

theorem Extends.of_names_eq (hnames : t.memory.names = s.memory.names)
    (houter : t.emission.outer = s.emission.outer) : Extends s t :=
  ⟨hnames ▸ .refl _, houter, fun h => hnames ▸ h⟩

theorem Extends.refl (s : State) : Extends s s := .of_names_eq rfl rfl

theorem Extends.trans (h : Extends s t) (k : Extends t u) : Extends s u :=
  ⟨h.names.trans k.names, k.outer.trans h.outer, fun hs => k.numbered (h.numbered hs)⟩

theorem numbered_joined (stem : String) (k : Nat) :
    Numbered (NameSupply.joined stem (toString k)) := by
  have hlist : (NameSupply.joined stem (toString k)).toList =
      stem.toList ++ '_' :: Nat.toDigits 10 k := by
    simp [NameSupply.joined, String.toList_append]
  have hdigit : ∀ c ∈ Nat.toDigits 10 k, c.isDigit = true := fun c hc =>
    Nat.isDigit_of_mem_toDigits (by decide) (by decide) hc
  constructor
  case mark =>
    rw [hlist]
    cases hplain : isPlain (stem.toList ++ '_' :: Nat.toDigits 10 k) with
    | false => rfl
    | true =>
      have hnumber := (isPlain_append hplain).2
      cases hcs : Nat.toDigits 10 k with
      | nil => exact absurd hcs Nat.toDigits_ne_nil
      | cons c cs =>
        rw [hcs, isPlain, hdigit c (by simp [hcs])] at hnumber
        cases hnumber
  case last =>
    obtain ⟨init, c, hcs⟩ :=
      (List.eq_nil_or_concat (Nat.toDigits 10 k)).resolve_left Nat.toDigits_ne_nil
    rw [List.concat_eq_append] at hcs
    have hlast : (stem.toList ++ '_' :: Nat.toDigits 10 k).getLast? = some c := by
      rw [hcs, ← List.cons_append, ← List.append_assoc]
      exact List.getLast?_concat
    rw [ends, hlist, hlast]
    exact hdigit c (by simp [hcs])

theorem Extends.fresh (s : State) (hint : String) :
    Extends s (s.withNames (s.memory.names.fresh hint).2) where
  names := .fresh _ hint
  outer := rfl
  numbered h x hx := by
    rcases List.mem_cons.1 hx with rfl | hx
    · exact numbered_joined hint _
    · exact h x hx

theorem Extends.named (s : State) (hint : String) (id : ExprId) :
    Extends s
      (s.withNames (s.memory.names.named hint id.text).2) where
  names := .named _ hint id.text
  outer := rfl
  numbered h x hx := by
    have hid : Numbered (NameSupply.joined hint id.text) := numbered_joined hint id.index
    simp only [NameSupply.named] at hx
    split at hx
    · exact h x hx
    · split at hx
      · rcases List.mem_cons.1 hx with rfl | hx
        · exact numbered_joined _ _
        · exact h x hx
      · rcases List.mem_cons.1 hx with rfl | hx
        · exact hid
        · exact h x hx

theorem Extends.unlisted (h : Extends s t) (hused : n ∈ s.memory.names.used)
    (hmemo : ∀ key, s.memory.names.memo.lookup key ≠ some n) :
    ∀ key, t.memory.names.memo.lookup key ≠ some n := by
  intro key hkey
  rcases h.names.added key n hkey with hold | hnew
  · exact hmemo key hold
  · exact hnew hused

theorem Step.trans (hext : Extends s t) (h : Step n s t) (k : Step n t u) : Step n s u where
  declared hd := k.declared (h.declared hd)
  barred hused hmemo hd :=
    h.barred hused hmemo (k.barred (hext.names.used n hused) (hext.unlisted hused hmemo) hd)

theorem Clear.of_extends (h : Clear n t) (hext : Extends s t) : Clear n s where
  others x hx := h.others x (hext.names.used x hx)
  buffers id hid := h.buffers id (hext.names.kept _ _ hid)

theorem Ordered.declared_iff (h : Ordered n s) :
    ∃ d, (d = true ↔ Declared n s) ∧ Scoped n false (pieces s.emission.current.pre) d := by
  obtain ⟨d, hd⟩ := h.pre
  exact ⟨d, hd.declared_iff.trans (by simp [Declared]), hd⟩

/-- Handing out names alone changes nothing. -/
theorem Ordered.of_extends (h : Ordered n s) (hframe : t.emission.current = s.emission.current)
    (hsupply : ∃ done, t.memory.names.Records done) :
    Ordered n t ∧ (Declared n t ↔ Declared n s) := by
  have hdeclared : Declared n t ↔ Declared n s := by rw [Declared, hframe]; rfl
  refine ⟨⟨?_, ?_, hsupply⟩, hdeclared⟩
  · rw [hframe]; exact h.pre
  · rw [hframe, hdeclared]; exact h.post

theorem Inv.of_extends (h : Inv p n s) (hext : Extends s t)
    (hframe : t.emission.current = s.emission.current)
    (hsupply : ∃ done, t.memory.names.Records done) : Inv p n t := by
  obtain ⟨hordered, hdeclared⟩ := h.toOrdered.of_extends hframe hsupply
  refine { hordered with owned := ?_, tied := ?_ }
  · exact fun hd => hext.names.used n (h.owned (hdeclared.1 hd))
  · intro hint id hlookup c hc hdecl
    rw [hframe] at hc
    rcases hext.names.added _ _ hlookup with hold | hnew
    · exact h.tied hint id hold c hc hdecl
    · exact absurd (h.owned ⟨c, hc, hdecl⟩) hnew

end Basics

/-! ### Code around the statement -/

section Frame

variable {p : Program} {n : String} {s : State} {c : String}

theorem prepend_of_mem (h : c ∈ s.emission.current.pre) : s.emission.prepend c = s.emission := by
  rw [Emission.prepend, if_pos (List.contains_iff_mem.2 h)]

theorem pre_prepend (h : c ∉ s.emission.current.pre) :
    (s.emission.prepend c).current.pre = s.emission.current.pre ++ [c] := by
  rw [Emission.prepend, if_neg fun hc => h (List.contains_iff_mem.1 hc)]

theorem post_prepend (c : String) (e : Emission) : (e.prepend c).current.post = e.current.post := by
  unfold Emission.prepend
  split <;> rfl

theorem outer_prepend (c : String) (e : Emission) : (e.prepend c).outer = e.outer := by
  unfold Emission.prepend
  split <;> rfl

theorem Extends.prepend (s : State) (c : String) : Extends s (s.prepend c) :=
  .of_names_eq rfl (outer_prepend c s.emission)

theorem mem_of_prepend {c' : String} (h : c' ∈ (s.emission.prepend c).current.pre) :
    c' ∈ s.emission.current.pre ∨ c' = c := by
  by_cases hmem : c ∈ s.emission.current.pre
  · rw [prepend_of_mem hmem] at h
    exact .inl h
  · rw [pre_prepend hmem] at h
    simpa using h

/-- Code that is allowed can be put in front of the statement. -/
theorem Ordered.prepend (h : Ordered n s) (hc : Allowed n (Declared n s) c) :
    Ordered n (s.prepend c) ∧
      (Declared n (s.prepend c) ↔ Declared n s) := by
  by_cases hmem : c ∈ s.emission.current.pre
  · rw [State.prepend, prepend_of_mem hmem]
    exact ⟨h, Iff.rfl⟩
  · have hpre := pre_prepend hmem
    have hdeclared : Declared n (s.prepend c) ↔ Declared n s := by
      simp only [Declared, hpre, List.mem_append, List.mem_singleton]
      constructor
      · rintro ⟨c', hc' | rfl, hd⟩
        · exact ⟨c', hc', hd⟩
        · exact absurd hd hc.not_declares
      · rintro ⟨c', hc', hd⟩
        exact ⟨c', .inl hc', hd⟩
    refine ⟨⟨?_, ?_, h.supply⟩, hdeclared⟩
    · obtain ⟨d, hiff, hd⟩ := h.declared_iff
      refine ⟨d, ?_⟩
      simp only [hpre, pieces, List.map_append]
      exact hd.append (.of_allowed (hc.mono hiff.2))
    · rw [post_prepend, hdeclared]
      exact h.post

theorem Inv.prepend (h : Inv p n s) (hc : Allowed n (Declared n s) c) :
    Inv p n (s.prepend c) ∧
      (Declared n (s.prepend c) ↔ Declared n s) := by
  obtain ⟨hordered, hdeclared⟩ := h.toOrdered.prepend hc
  refine ⟨{ hordered with owned := fun hd => h.owned (hdeclared.1 hd), tied := ?_ }, hdeclared⟩
  intro hint id hlookup c' hc' hd
  rcases mem_of_prepend hc' with hc' | rfl
  · exact h.tied hint id hlookup c' hc' hd
  · exact absurd hd hc.not_declares

/-- Code that is allowed can be put behind the statement. -/
theorem Ordered.append (h : Ordered n s) (hc : Allowed n (Declared n s) c) :
    Ordered n (s.append c) where
  pre := h.pre
  post c' hc' := by
    rcases List.mem_append.1 hc' with hc' | hc'
    · exact h.post c' hc'
    · rw [List.mem_singleton.1 hc']
      exact hc
  supply := h.supply

theorem Inv.append (h : Inv p n s) (hc : Allowed n (Declared n s) c) :
    Inv p n (s.append c) :=
  { h.toOrdered.append hc with owned := h.owned, tied := h.tied }

/-- The code declares the name that it is for and is allowed otherwise. -/
structure Announces (n : String) (C : Prop) (m code : String) : Prop where
  declares : m = n → ¬ C → IsWord n → Declares n code
  allowed : m ≠ n → ¬ Mentions n m → Allowed n C code

/-- A declaration can be put in front of the statement if there is none yet or if it is the one
that is there. -/
theorem Ordered.declare (h : Ordered n s) (hclear : Clear n s) {m : String}
    (hm : m ∈ s.memory.names.used) (hann : Announces n (Declared n s) m c)
    (honce : m = n → Declared n s → c ∈ s.emission.current.pre) :
    Ordered n (s.prepend c) ∧
      Allowed n (Declared n (s.prepend c)) m ∧
      (Declared n s → Declared n (s.prepend c)) ∧
      (m ≠ n → Declared n (s.prepend c) → Declared n s) := by
  by_cases hmn : m = n
  · subst hmn
    by_cases hword : IsWord m
    · by_cases hdeclared : Declared m s
      · rw [State.prepend, prepend_of_mem (honce rfl hdeclared)]
        exact ⟨h, .self hdeclared, id, fun _ => id⟩
      · -- the first declaration in the frame, which has not been mentioned so far
        have hdeclares := hann.declares rfl hdeclared hword
        have hmem : c ∉ s.emission.current.pre := fun hc => hdeclared ⟨c, hc, hdeclares⟩
        have hpre := pre_prepend hmem
        have hdone : Declared m (s.prepend c) :=
          ⟨c, by simp only [hpre]; simp, hdeclares⟩
        refine ⟨⟨⟨true, ?_⟩, ?_, h.supply⟩, .self hdone, fun _ => hdone, fun hne => absurd rfl hne⟩
        · obtain ⟨d, hiff, hd⟩ := h.declared_iff
          rw [Bool.eq_false_iff.2 fun heq => hdeclared (hiff.1 heq)] at hd
          simp only [hpre, pieces, List.map_append]
          exact hd.append (.of_declares hdeclares)
        · intro c' hc'
          rw [post_prepend] at hc'
          exact (h.post c' hc').mono fun hd => absurd hd hdeclared
    · obtain ⟨hordered, hiff⟩ := h.prepend (.of_not_isWord hword : Allowed m (Declared m s) c)
      exact ⟨hordered, .of_not_isWord hword, hiff.2, fun _ => hiff.1⟩
  · have hclean := hclear.others m hm hmn
    obtain ⟨hordered, hiff⟩ := h.prepend (hann.allowed hmn hclean)
    exact ⟨hordered, .of_clean hclean, hiff.2, fun _ => hiff.1⟩

theorem Inv.declare (h : Inv p n s) (hclear : Clear n s) {m : String}
    (hm : m ∈ s.memory.names.used) (hann : Announces n (Declared n s) m c)
    (honce : m = n → Declared n s → c ∈ s.emission.current.pre)
    (htied : m = n → ∀ hint (id : ExprId), s.memory.names.memo.lookup (hint, id.text) = some n →
      issue p hint id n = some c) :
    Inv p n (s.prepend c) ∧
      Allowed n (Declared n (s.prepend c)) m ∧
      (Declared n s → Declared n (s.prepend c)) ∧
      (m ≠ n → Declared n (s.prepend c) → Declared n s) := by
  obtain ⟨hordered, hself, hmono, hback⟩ := h.toOrdered.declare hclear hm hann honce
  refine ⟨{ hordered with owned := fun hd => ?_, tied := ?_ }, hself, hmono, hback⟩
  · by_cases hmn : m = n
    · exact hmn ▸ hm
    · exact h.owned (hback hmn hd)
  · intro hint id hlookup c' hc' hd
    rcases mem_of_prepend hc' with hc' | rfl
    · exact h.tied hint id hlookup c' hc' hd
    · by_cases hmn : m = n
      · exact htied hmn hint id hlookup
      · exact absurd hd (hann.allowed hmn (hclear.others m hm hmn)).not_declares

end Frame

end Lower

end PacketC
