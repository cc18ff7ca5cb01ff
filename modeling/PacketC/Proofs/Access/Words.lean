import PacketC.Proofs.Scope.Script

/-! The macros that reach into the packet, and the words behind them. A text is in order if behind
each of these macros stands a place that it may reach. That is a property of the words of the text,
and it is kept where texts meet at a mark; so it is read off from what a text is put together
from. -/

namespace PacketC.Code

/-- The macros that read and write fields of the packet. -/
def accessors : List String :=
  ["GET_INT32_AUTO_PACKET", "EXTRACT_BYTEBUF_PACKET", "MODIFY_BYTEBUF_BYTEBUF_PACKET", "set_field"]

/-- What stands behind an accessor: the packet, a header, and a field. -/
def location (accessor header field : String) : String :=
  if accessor = "set_field" then s!"((fldT[])\x7b\x7bpd, {header}, {field}"
  else s!"(pd, {header}, {field}"

/-- The headers and fields that an accessor may be applied to. -/
abbrev Grant := (accessor header field : String) → Prop

/-- Behind each accessor among the words are those of a place that it may be applied to. -/
def AccessesIn (Q : Grant) (ws : List (List Char)) : Prop :=
  ∀ accessor ∈ accessors, ∀ before after, ws = before ++ accessor.toList :: after →
    ∃ header field, Q accessor header field ∧ words (location accessor header field) <+: after

def Accesses (Q : Grant) (text : String) : Prop := AccessesIn Q (words text)

/-- No accessor is in the text. -/
abbrev Free (text : String) : Prop := Accesses (fun _ _ _ => False) text

variable {Q : Grant} {text : String}

theorem free_iff : Free text ↔ ∀ a ∈ accessors, ¬ Mentions a text := by
  constructor
  · intro h a ha hm
    obtain ⟨before, after, heq⟩ := List.append_of_mem hm
    obtain ⟨_, _, hnone, _⟩ := h a ha before after heq
    exact hnone
  · intro h a ha before after heq
    refine absurd ?_ (h a ha)
    rw [Mentions, heq]
    simp

theorem Free.accesses (h : Free text) : Accesses Q text := by
  intro a ha before after heq
  obtain ⟨_, _, hnone, _⟩ := h a ha before after heq
  exact hnone.elim

/-! ### Words put together -/

namespace AccessesIn

variable {ws vs : List (List Char)}

theorem nil : AccessesIn Q [] := by
  intro a _ before after heq
  simp at heq

theorem append (hws : AccessesIn Q ws) (hvs : AccessesIn Q vs) : AccessesIn Q (ws ++ vs) := by
  intro a ha before after heq
  rcases List.append_eq_append_iff.1 heq with ⟨rest, rfl, hrest⟩ | ⟨rest, hrest, hafter⟩
  · exact hvs a ha rest after hrest
  · cases rest with
    | nil => exact hvs a ha [] after (by simpa using hafter.symm)
    | cons w rest =>
      rw [List.cons_append, List.cons.injEq] at hafter
      obtain ⟨rfl, rfl⟩ := hafter
      obtain ⟨header, field, hQ, hprefix⟩ := hws a ha before rest hrest
      exact ⟨header, field, hQ, hprefix.trans (List.prefix_append rest vs)⟩

theorem flatMap {α : Type} {parts : List α} {f : α → List (List Char)}
    (h : ∀ part ∈ parts, AccessesIn Q (f part)) : AccessesIn Q (parts.flatMap f) := by
  induction parts with
  | nil => exact nil
  | cons part parts ih =>
    rw [List.forall_mem_cons] at h
    exact h.1.append (ih h.2)

/-- An accessor in front of a place that it may be applied to. -/
theorem cons {accessor header field : String} (hQ : Q accessor header field)
    (hplace : words (location accessor header field) <+: ws) (hws : AccessesIn Q ws) :
    AccessesIn Q (accessor.toList :: ws) := by
  intro a ha before after heq
  cases before with
  | nil =>
    rw [List.nil_append, List.cons.injEq, String.toList_inj] at heq
    obtain ⟨rfl, rfl⟩ := heq
    exact ⟨header, field, hQ, hplace⟩
  | cons w before => exact hws a ha before after (List.cons.inj heq).2

end AccessesIn

/-! ### Texts put together -/

namespace Accesses

variable {a b : String} {parts : List String}

theorem append (h : ends isMark a = true ∨ starts isMark b = true) (ha : Accesses Q a)
    (hb : Accesses Q b) : Accesses Q (a ++ b) := by
  rw [Accesses, words_append h]
  exact AccessesIn.append ha hb

theorem stacked (h : ∀ part ∈ parts, Accesses Q part) : Accesses Q (stacked parts) := by
  rw [Accesses, words_stacked]
  exact .flatMap h

end Accesses

/-! ### Fixed texts -/

theorem isFree_prefix {a b : List Char} (h : isFree (a ++ b) = true) : isFree a = true := by
  induction a with
  | nil => rfl
  | cons c a ih =>
    have hrest := ih (isFree_tail h)
    rcases a with _ | ⟨d, _ | ⟨e, a⟩⟩
    · rfl
    · rfl
    · rw [List.cons_append, List.cons_append, List.cons_append, isFree, Bool.and_eq_true] at h
      rw [isFree, h.1, hrest]
      rfl

theorem isFree_accessors : ∀ a ∈ accessors, isFree a.toList = false := by decide

theorem free_of_isFree (h : isFree text.toList = true) : Free text := by
  refine free_iff.2 fun a ha hm => ?_
  obtain ⟨front, back, hinfix⟩ := infix_of_mem_wordsIn hm
  rw [← hinfix, List.append_assoc] at h
  have hfree := isFree_prefix (isFree_suffix front h)
  rw [isFree_accessors a ha] at hfree
  cases hfree

/-- Accessors are in no fixed text. -/
theorem closed_accesses : Closed true (Accesses Q) where
  fixed {cs} h := by
    simp only [isFixed, Bool.and_eq_true] at h
    refine (free_of_isFree ?_).accesses
    rw [String.toList_ofList]
    exact h.1.1
  append := .append

theorem closed_free : Closed true Free := closed_accesses

/-! ### Names that are made longer -/

section Names

variable {b x : String}

/-- Letters at the end of a name, which no accessor ends in. -/
theorem Free.append_word (hx : Free x) (hb : b.toList.all isWordChar = true)
    (hlast : ends isEndLetter b = true) : Free (x ++ b) := by
  rw [free_iff] at hx ⊢
  intro a ha hm
  rw [Mentions, words, String.toList_append] at hm
  rcases mem_wordsIn_append_word hb hm with hm | ⟨front, hsuffix⟩
  · exact hx a ha hm
  · have hall : ∀ a ∈ accessors, a.toList.getLast?.any isEndLetter = false := by decide
    have hends := hall a ha
    rw [ends] at hlast
    cases hb' : b.toList.getLast? with
    | none => rw [hb'] at hlast; cases hlast
    | some c =>
      rw [← hsuffix, List.getLast?_append, hb'] at hends
      rw [hb'] at hlast
      rw [Option.some_or, hlast] at hends
      cases hends

/-- Letters in front of a name, which no accessor starts with. -/
theorem Free.word_append (hb : b.toList.all isWordChar = true)
    (hfirst : starts (fun c => !(['G', 'E', 'M', 's'].contains c)) b = true) (hx : Free x) :
    Free (b ++ x) := by
  rw [free_iff] at hx ⊢
  intro a ha hm
  rw [Mentions, words, String.toList_append] at hm
  rcases mem_wordsIn_word_append hb hm with hm | ⟨back, hprefix⟩
  · exact hx a ha hm
  · have hall : ∀ a ∈ accessors,
        a.toList.head?.any (fun c => !(['G', 'E', 'M', 's'].contains c)) = false := by decide
    have hstarts := hall a ha
    rw [starts] at hfirst
    cases hb' : b.toList with
    | nil => rw [hb'] at hfirst; cases hfirst
    | cons c cs =>
      rw [hb'] at hfirst hprefix
      rw [← hprefix, List.cons_append, List.head?_cons, Option.any_some] at hstarts
      rw [List.head?_cons, Option.any_some, hstarts] at hfirst
      cases hfirst

/-- A word that ends like no accessor is none. -/
theorem free_of_word {p : Char → Bool} (hp : p 'T' = false ∧ p 'd' = false)
    (hx : x.toList.all isWordChar = true) (hlast : ends p x = true) : Free x := by
  refine free_iff.2 fun a ha hm => ?_
  have hne : x.toList ≠ [] := by
    intro hnil
    rw [ends, hnil] at hlast
    cases hlast
  rw [Mentions, words, wordsIn_word hne hx, List.mem_singleton, String.toList_inj] at hm
  subst hm
  have hall : ∀ a ∈ accessors, a.toList.getLast? = some 'T' ∨ a.toList.getLast? = some 'd' := by
    decide
  rcases hall a ha with hend | hend <;> rw [ends, hend] at hlast
  · exact absurd hlast (by simp [hp.1])
  · exact absurd hlast (by simp [hp.2])

end Names

end PacketC.Code
