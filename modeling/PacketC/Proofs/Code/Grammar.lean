import PacketC.Proofs.Code.Basic

/-! The grammar of expressions, and that reading follows it. `Spells n e ts` says that the tokens
are a spelling of the term as an operand for operators that bind less tightly than `n`. Each
spelling is read as the term that it spells. -/

namespace PacketC.Code

def Op.token : Op → Token
  | .mul => .one '*'
  | .div => .one '/'
  | .mod => .one '%'
  | .add => .one '+'
  | .sub => .one '-'
  | .shl => .two '<' '<'
  | .shr => .two '>' '>'
  | .lt => .one '<'
  | .gt => .one '>'
  | .le => .two '<' '='
  | .ge => .two '>' '='
  | .eq => .two '=' '='
  | .ne => .two '!' '='
  | .band => .one '&'
  | .bxor => .one '^'
  | .bor => .one '|'
  | .land => .two '&' '&'
  | .lor => .two '|' '|'

def UnOp.token : UnOp → Token
  | .neg => .one '-'
  | .compl => .one '~'
  | .not => .one '!'

/-- A word that stands for something in the store. -/
structure IsName (x : String) : Prop where
  notNumber : x.toList.head?.any Char.isDigit = false
  notType : IntType.ofName? x = none

mutual

/-- What needs no parentheses anywhere. -/
inductive Primary : Term → List Token → Prop
  | num {w : List Char} {n : Nat} (hd : w.head?.any Char.isDigit = true) (h : number? w = some n) :
      Primary (.num n) [.word w]
  | name {x : String} (h : IsName x) : Primary (.name x) [.word x.toList]
  | paren {e : Term} {ts : List Token} (h : Spells 0 e ts) :
      Primary e (.one '(' :: (ts ++ [.one ')']))
  | arrow {e : Term} {ts : List Token} (h : Primary e ts) (field : String) :
      Primary (.arrow e field) (ts ++ [.two '-' '>', .word field.toList])
  | dot {e : Term} {ts : List Token} (h : Primary e ts) (field : String) :
      Primary (.dot e field) (ts ++ [.one '.', .word field.toList])
  | call {f : String} {args : List Term} {ts : List Token} (hf : IsName f) (h : Args args ts) :
      Primary (.call f args) (.word f.toList :: .one '(' :: (ts ++ [.one ')']))

inductive Args : List Term → List Token → Prop
  | last {e : Term} {ts : List Token} (h : Spells 0 e ts) : Args [e] ts
  | more {e : Term} {es : List Term} {ts us : List Token} (h : Spells 0 e ts) (hs : Args es us) :
      Args (e :: es) (ts ++ .one ',' :: us)

inductive Spells : Nat → Term → List Token → Prop
  | primary {e : Term} {ts : List Token} (h : Primary e ts) : Spells 11 e ts
  | unary (op : UnOp) {e : Term} {ts : List Token} (h : Spells 11 e ts) :
      Spells 11 (.unary op e) (op.token :: ts)
  | cast {x : String} {ty : IntType} {e : Term} {ts : List Token}
      (hd : x.toList.head?.any Char.isDigit = false) (hx : IntType.ofName? x = some ty)
      (h : Spells 11 e ts) :
      Spells 11 (.cast ty e) (.one '(' :: .word x.toList :: .one ')' :: ts)
  | binary (op : Op) {l r : Term} {ls rs : List Token} (hl : Spells op.prec l ls)
      (hr : Spells (op.prec + 1) r rs) : Spells op.prec (.binary op l r) (ls ++ op.token :: rs)
  | cond {c t f : Term} {cs ts fs : List Token} (hc : Spells 1 c cs) (ht : Spells 0 t ts)
      (hf : Spells 0 f fs) : Spells 0 (.cond c t f) (cs ++ .one '?' :: (ts ++ .one ':' :: fs))
  | looser {n : Nat} {e : Term} {ts : List Token} (h : Spells (n + 1) e ts) : Spells n e ts

end

variable {n : Nat} {ts : List Token}

theorem Spells.mono {m : Nat} {e : Term} (h : Spells n e ts) (hm : m ≤ n) : Spells m e ts := by
  induction n with
  | zero => obtain rfl : m = 0 := by omega
            exact h
  | succ n ih =>
    by_cases heq : m = n + 1
    · exact heq ▸ h
    · exact ih h.looser (by omega)

/-! ### Steps -/

/-- The tokens lead from one state to the other. -/
def Runs (s : State) (ts : List Token) (s' : State) : Prop := ts.foldlM step s = some s'

theorem Runs.append {s s' s'' : State} {us : List Token} (h : Runs s ts s') (h' : Runs s' us s'') :
    Runs s (ts ++ us) s'' := by
  unfold Runs at *
  rw [List.foldlM_append, h]
  exact h'

theorem Runs.cons {s s' s'' : State} {t : Token} (h : step s t = some s') (h' : Runs s' ts s'') :
    Runs s (t :: ts) s'' := by
  unfold Runs at *
  rw [List.foldlM_cons, h]
  exact h'

theorem Runs.single {s s' : State} {t : Token} (h : step s t = some s') : Runs s [t] s' :=
  .cons h rfl

theorem step_op (op : Op) (e : Term) (stack : List Frame) :
    step (.after e stack) op.token = some (.before (.binary op (reduce op.prec stack e).2 ::
      (reduce op.prec stack e).1)) := by
  cases op <;> cases e <;> rfl

theorem step_unary (op : UnOp) (stack : List Frame) :
    step (.before stack) op.token = some (.before (.unary op :: stack)) := by
  cases op <;> cases stack <;> rfl

theorem step_word (w : List Char) (stack : List Frame) :
    step (.before stack) (.word w) = readWord w stack := by
  cases stack with
  | nil => rfl
  | cons frame _ => cases frame <;> rfl

theorem step_field (access : String → Term) (stack : List Frame) (field : String) :
    step (.member access stack) (.word field.toList) = some (.after (access field) stack) := by
  show some (State.after (access (String.ofList field.toList)) stack) = _
  rw [String.ofList_toList]

section Close

variable {e e' c : Term} {stack rest : List Frame} {f : String} {args : List Term}

/-- What a closing token does depends only on what is left once the tighter frames are closed. -/
theorem step_reduced {x : Char} (hx : x = ')' ∨ x = ',' ∨ x = ':')
    (h : reduce 0 stack e = (rest, e')) (hrest : reduce 0 rest e' = (rest, e')) :
    step (.after e stack) (.one x) = step (.after e' rest) (.one x) := by
  rcases hx with rfl | rfl | rfl <;> simp only [step, h, hrest]

theorem step_paren (h : reduce 0 stack e = (.paren :: rest, e')) :
    step (.after e stack) (.one ')') = some (.after e' rest) := by
  rw [step_reduced (.inl rfl) h rfl]
  cases e' <;> rfl

theorem step_call (h : reduce 0 stack e = (.call f args :: rest, e')) :
    step (.after e stack) (.one ')') = some (.after (.call f (args ++ [e'])) rest) := by
  rw [step_reduced (.inl rfl) h rfl]
  cases e' <;> rfl

theorem step_comma (h : reduce 0 stack e = (.call f args :: rest, e')) :
    step (.after e stack) (.one ',') = some (.before (.call f (args ++ [e']) :: rest)) := by
  rw [step_reduced (.inr (.inl rfl)) h rfl]
  cases e' <;> rfl

theorem step_colon (h : reduce 0 stack e = (.cond c :: rest, e')) :
    step (.after e stack) (.one ':') = some (.before (.alt c e' :: rest)) := by
  rw [step_reduced (.inr (.inr rfl)) h rfl]
  cases e' <;> rfl

theorem step_query (h : reduce 1 stack e = (rest, e')) :
    step (.after e stack) (.one '?') = some (.before (.cond e' :: rest)) := by
  have hstep : step (.after e stack) (.one '?') =
      some (.before (.cond (reduce 1 stack e).2 :: (reduce 1 stack e).1)) := by
    cases e <;> rfl
  rw [hstep, h]

theorem step_arrow : step (.after e stack) (.two '-' '>') = some (.member (.arrow e) stack) := by
  cases e <;> rfl

theorem step_dot : step (.after e stack) (.one '.') = some (.member (.dot e) stack) := by
  cases e <;> rfl

end Close

/-- Nothing on the stack binds as tightly as an operator of level `n` or above. -/
def Stable (n : Nat) (stack : List Frame) : Prop :=
  ∀ p, n ≤ p → 1 ≤ p → p ≤ 10 → ∀ e, reduce p stack e = (stack, e)

theorem Stable.mono {m : Nat} {stack : List Frame} (h : Stable m stack) (hm : m ≤ n) :
    Stable n stack := fun p hp => h p (by omega)

theorem Op.prec_le (op : Op) : 1 ≤ op.prec ∧ op.prec ≤ 10 := by cases op <;> decide

/-! ### Reading spellings -/

theorem IsName.step_eq {x : String} (h : IsName x) (stack : List Frame) :
    step (.before stack) (.word x.toList) = some (.after (.name x) stack) := by
  rw [step_word]
  simp [readWord, h.notNumber, String.ofList_toList, h.notType]

mutual

theorem Primary.runs {e : Term} {ts : List Token} :
    Primary e ts → ∀ stack, Runs (.before stack) ts (.after e stack)
  | .num hd h, stack => .single (by
    simp only [step_word, readWord, hd, h, if_true, Option.map_some])
  | .name h, stack => .single (h.step_eq stack)
  | .paren h, stack => by
    obtain ⟨pending, e', hrun, hreduce⟩ := h.runs (.paren :: stack) fun _ _ _ _ _ => rfl
    exact .cons rfl (hrun.append (.single (step_paren (hreduce 0 (Nat.zero_le _)))))
  | .arrow h field, stack =>
    (h.runs stack).append (.cons step_arrow (.single (step_field _ stack field)))
  | .dot h field, stack =>
    (h.runs stack).append (.cons step_dot (.single (step_field _ stack field)))
  | .call hf h, stack => .cons (hf.step_eq stack) (.cons rfl (h.runs _ [] stack))

theorem Args.runs {args : List Term} {ts : List Token} :
    Args args ts → ∀ f before stack, Runs (.before (.call f before :: stack)) (ts ++ [.one ')'])
      (.after (.call f (before ++ args)) stack)
  | .last h, f, before, stack => by
    obtain ⟨pending, e', hrun, hreduce⟩ := h.runs (.call f before :: stack) fun _ _ _ _ _ => rfl
    exact hrun.append (.single (step_call (hreduce 0 (Nat.zero_le _))))
  | @Args.more e es ts us h hs, f, before, stack => by
    obtain ⟨pending, e', hrun, hreduce⟩ := h.runs (.call f before :: stack) fun _ _ _ _ _ => rfl
    have hrest := hs.runs f (before ++ [e]) stack
    rw [List.append_assoc, List.singleton_append] at hrest
    rw [List.append_assoc, List.cons_append]
    exact hrun.append (.cons (step_comma (hreduce 0 (Nat.zero_le _))) hrest)

/-- After the tokens, the frames that are still open close to the term. -/
theorem Spells.runs {n : Nat} {e : Term} {ts : List Token} :
    Spells n e ts → ∀ stack, Stable n stack → ∃ pending e',
      Runs (.before stack) ts (.after e' (pending ++ stack)) ∧
      ∀ p ≤ n, reduce p (pending ++ stack) e' = reduce p stack e
  | .primary h, stack, _ => ⟨[], _, h.runs stack, fun _ _ => rfl⟩
  | .unary op h, stack, _ => by
    obtain ⟨pending, e', hrun, hreduce⟩ := h.runs (.unary op :: stack) fun _ _ _ _ => by omega
    refine ⟨pending ++ [.unary op], e', .cons (step_unary op stack) ?_, fun p hp => ?_⟩
    · rwa [List.append_assoc, List.singleton_append]
    · rw [List.append_assoc, List.singleton_append, hreduce p hp, reduce]
  | @Spells.cast x ty e ts hd hx h, stack, _ => by
    obtain ⟨pending, e', hrun, hreduce⟩ := h.runs (.cast ty :: stack) fun _ _ _ _ => by omega
    have hword : step (.before (.paren :: stack)) (.word x.toList) =
        some (.before (.typeName ty :: stack)) := by
      rw [step_word]
      simp [readWord, hd, String.ofList_toList, hx]
    refine ⟨pending ++ [.cast ty], e', .cons rfl (.cons hword (.cons rfl ?_)), fun p hp => ?_⟩
    · rwa [List.append_assoc, List.singleton_append]
    · rw [List.append_assoc, List.singleton_append, hreduce p hp, reduce]
  | @Spells.binary op l r ls rs hl hr, stack, hs => by
    obtain ⟨open₁, l', hrun₁, hreduce₁⟩ := hl.runs stack hs
    have hclose : reduce op.prec (open₁ ++ stack) l' = (stack, l) := by
      rw [hreduce₁ _ (Nat.le_refl _)]
      exact hs _ (Nat.le_refl _) op.prec_le.1 op.prec_le.2 l
    have hstep := step_op op l' (open₁ ++ stack)
    rw [hclose] at hstep
    -- the operator itself binds less tightly than its right operand
    have hstable : Stable (op.prec + 1) (.binary op l :: stack) := by
      intro p hp _ _ e
      rw [reduce, if_neg (by omega)]
    obtain ⟨open₂, r', hrun₂, hreduce₂⟩ := hr.runs (.binary op l :: stack) hstable
    refine ⟨open₂ ++ [.binary op l], r', hrun₁.append (.cons hstep ?_), fun p hp => ?_⟩
    · rwa [List.append_assoc, List.singleton_append]
    · rw [List.append_assoc, List.singleton_append, hreduce₂ p (by omega), reduce, if_pos hp]
  | @Spells.cond c t f cs ts fs hc ht hf, stack, hs => by
    obtain ⟨open₁, c', hrun₁, hreduce₁⟩ := hc.runs stack (hs.mono (Nat.zero_le _))
    have hquery : reduce 1 (open₁ ++ stack) c' = (stack, c) := by
      rw [hreduce₁ 1 (Nat.le_refl _)]
      exact hs 1 (Nat.zero_le _) (Nat.le_refl _) (by omega) c
    obtain ⟨open₂, t', hrun₂, hreduce₂⟩ := ht.runs (.cond c :: stack) fun _ _ _ _ _ => rfl
    have hstable : Stable 0 (.alt c t :: stack) := by
      intro p _ hp _ e
      rw [reduce, if_neg (by omega)]
    obtain ⟨open₃, f', hrun₃, hreduce₃⟩ := hf.runs (.alt c t :: stack) hstable
    have hcolon := step_colon (hreduce₂ 0 (Nat.le_refl _))
    refine ⟨open₃ ++ [.alt c t], f', ?_, fun p hp => ?_⟩
    · rw [List.append_assoc, List.singleton_append]
      exact hrun₁.append (.cons (step_query hquery) (hrun₂.append (.cons hcolon hrun₃)))
    · obtain rfl : p = 0 := by omega
      rw [List.append_assoc, List.singleton_append, hreduce₃ 0 (Nat.le_refl _), reduce, if_pos rfl]
  | .looser h, stack, hs => by
    obtain ⟨pending, e', hrun, hreduce⟩ := h.runs stack (hs.mono (Nat.le_succ _))
    exact ⟨pending, e', hrun, fun p hp => hreduce p (by omega)⟩

end

/-- A spelling is read as the term that it spells. -/
theorem Spells.parse_eq {e : Term} (h : Spells n e ts) : parse ts = some e := by
  obtain ⟨pending, e', hrun, hreduce⟩ := h.runs [] fun _ _ _ _ _ => rfl
  have hclose : reduce 0 (pending ++ []) e' = ([], e) := hreduce 0 (Nat.zero_le _)
  unfold parse
  rw [show ts.foldlM step (.before []) = _ from hrun, Option.bind_some, finish, hclose]

end PacketC.Code
