import PacketC.Proofs.Scope.Declares

/-! Generated code as a script: its pieces in the order of the code, with the bodies that have a
frame of their own marked. A name is well scoped in a script if every frame that mentions it
declares it before that, and once. -/

namespace PacketC.Code

inductive Mark where
  | opens
  | code (text : String)
  | closes

abbrev Script := List Mark

def pieces (texts : List String) : Script := texts.map .code

/-- A body with the code in front of it and behind it. -/
def enframed (pre : List String) (body : Script) (post : List String) : Script :=
  pieces pre ++ body ++ pieces post

/-- A body that has a frame of its own. -/
def nestled (inner : Script) : Script := .opens :: (inner ++ [.closes])

/-! ### Reading a script -/

def Mark.words : Mark → List (List Char)
  | .code text => Code.words text
  | .opens | .closes => []

def Script.words (s : Script) : List (List Char) := s.flatMap Mark.words

namespace Script

@[simp]
theorem words_nil : words [] = [] := rfl

@[simp]
theorem words_cons (m : Mark) (s : Script) : words (m :: s) = m.words ++ words s := rfl

@[simp]
theorem words_append (a b : Script) : words (a ++ b) = words a ++ words b := List.flatMap_append

@[simp]
theorem words_code (text : String) : (Mark.code text).words = Code.words text := rfl

@[simp]
theorem words_pieces (texts : List String) : words (pieces texts) = texts.flatMap Code.words := by
  rw [words, pieces, List.flatMap_map]
  rfl

@[simp]
theorem words_nestled (inner : Script) : words (nestled inner) = words inner := by
  simp [nestled, Mark.words]

theorem words_enframed (pre : List String) (body : Script) (post : List String) :
    words (enframed pre body post) =
      pre.flatMap Code.words ++ words body ++ post.flatMap Code.words := by
  simp [enframed]

end Script

/-! ### Scopes -/

/-- Reads a script from a place where the name is declared in the frame or not to another such
place. No frame starts with the name declared; a piece uses it only where it is, and declares it
only where it is not. -/
inductive Scoped (n : String) : Bool → Script → Bool → Prop
  | nil (d : Bool) : Scoped n d [] d
  | uses {d e : Bool} {text : String} {rest : Script} (h : Mentions n text → d = true)
      (hnot : ¬ Declares n text) (hrest : Scoped n d rest e) : Scoped n d (.code text :: rest) e
  | declares {e : Bool} {text : String} {rest : Script} (h : Declares n text)
      (hrest : Scoped n true rest e) : Scoped n false (.code text :: rest) e
  | body {c d e : Bool} {inner rest : Script} (hinner : Scoped n false inner c)
      (hrest : Scoped n d rest e) : Scoped n d (nestled inner ++ rest) e

/-- The script of a whole fragment declares the name before it uses it, in each frame. -/
def WellScoped (n : String) (s : Script) : Prop := ∃ d, Scoped n false s d

namespace Scoped

variable {n : String} {d e f : Bool} {a b : Script}

theorem append (ha : Scoped n d a e) (hb : Scoped n e b f) : Scoped n d (a ++ b) f := by
  induction ha with
  | nil => exact hb
  | uses h hnot _ ih => exact .uses h hnot (ih hb)
  | declares h _ ih => exact .declares h (ih hb)
  | body hinner _ _ ih => rw [List.append_assoc]; exact .body hinner (ih hb)

theorem of_allowed {text : String} (h : Allowed n (d = true) text) : Scoped n d [.code text] d :=
  .uses h.covered h.not_declares (.nil d)

theorem of_declares {text : String} (h : Declares n text) : Scoped n false [.code text] true :=
  .declares h (.nil true)

theorem nestled {c : Bool} (h : Scoped n false a c) : Scoped n d (nestled a) d := by
  simpa using body h (.nil d)

theorem pieces {texts : List String} (h : ∀ t ∈ texts, Allowed n (d = true) t) :
    Scoped n d (pieces texts) d := by
  induction texts with
  | nil => exact .nil d
  | cons t texts ih =>
    have ht := h t (.head texts)
    exact .uses ht.covered ht.not_declares (ih fun s hs => h s (.tail t hs))

/-- After some pieces the name is declared if it was before or if one of them declares it. -/
theorem declared_iff {texts : List String} (h : Scoped n d (Code.pieces texts) e) :
    e = true ↔ d = true ∨ ∃ t ∈ texts, Declares n t := by
  induction texts generalizing d with
  | nil => cases h; simp
  | cons t texts ih =>
    cases h with
    | uses _ hnot hrest => rw [ih hrest]; simp [hnot]
    | declares ht hrest => rw [ih hrest]; simp [ht]

end Scoped

/-! ### The first mention -/

def Mark.mention (n : String) : Mark → Option String
  | .code text => if Mentions n text then some text else none
  | .opens | .closes => none

/-- The first piece that mentions the name. -/
def Script.firstMention (n : String) (s : Script) : Option String := s.findSome? (Mark.mention n)

theorem Script.firstMention_of_first {n text : String} {before : Script}
    (hbefore : before.firstMention n = none) (h : Mentions n text) (rest : Script) :
    firstMention n (before ++ .code text :: rest) = some text := by
  rw [firstMention] at hbefore ⊢
  rw [List.findSome?_append, hbefore, List.findSome?_cons, Mark.mention, if_pos h, Option.none_or]

theorem Script.mem_words_of_firstMention {n text : String} {s : Script}
    (h : s.firstMention n = some text) : n.toList ∈ s.words := by
  obtain ⟨m, hm, h⟩ := List.exists_of_findSome?_eq_some h
  refine List.mem_flatMap.2 ⟨m, hm, ?_⟩
  cases m with
  | code text =>
    rw [Mark.mention] at h
    split at h
    · assumption
    · cases h
  | opens => cases h
  | closes => cases h

/-- Where a name is not declared yet, the piece that mentions it first declares it. -/
theorem Scoped.declares_firstMention {n text : String} {d e : Bool} {s : Script}
    (h : Scoped n d s e) (hd : d = false) (htext : s.firstMention n = some text) :
    Declares n text := by
  rw [Script.firstMention] at htext
  induction h with
  | nil => cases htext
  | uses h _ _ ih =>
    subst hd
    have hnot := fun hmentions => Bool.false_ne_true (h hmentions)
    rw [List.findSome?_cons, Mark.mention, if_neg hnot] at htext
    exact ih rfl htext
  | declares h _ _ =>
    rw [List.findSome?_cons, Mark.mention, if_pos h.mentions] at htext
    cases htext
    exact h
  | body _ _ ihinner ihrest =>
    simp only [Code.nestled, List.cons_append, List.findSome?_cons, List.findSome?_append,
      List.findSome?_nil, Mark.mention, Option.or_none] at htext
    rcases Option.or_eq_some_iff.1 htext with htext | ⟨_, htext⟩
    · exact ihinner rfl htext
    · exact ihrest hd htext

end PacketC.Code

/-! ### Bodies -/

namespace PacketC.Code

/-- A body in braces, after its head. -/
theorem Sealed.block {P T : String → Prop} (h : Sealed true P T) {head : String}
    (hhead : T head) {lines : List String} (hlines : ∀ line ∈ lines, P line)
    (style : Indentation) :
    T ((Layout.empty style).block head fun l => l.linesOf lines).finish := by
  have hmargin := Layout.isBlank_margin (l := (Layout.empty style).indent)
    (Layout.isBlank_unit style)
  have hfinish : ((Layout.empty style).block head fun l => l.linesOf lines).finish =
      Text.unlines ((head ++ " \x7b") ::
        (lines.map ((Layout.empty style).indent.margin ++ ·) ++ ["\x7d"])) := by
    rw [Layout.block, Layout.openBlock, Layout.linesOf_eq]
    simp [Layout.closeBlock, Layout.finish, Layout.line, Layout.indent, Layout.dedent,
      Layout.margin, Layout.empty, String.join]
  rw [hfinish]
  refine h.unlines (h.start hhead rfl).whole (List.forall_mem_append.2 ⟨fun line hline => ?_, ?_⟩)
  · obtain ⟨inner, hinner, rfl⟩ := List.mem_map.1 hline
    exact h.closed.marks_append (List.all_eq_true.2 fun c hc =>
      isMark_of_isBlankChar (Text.isBlank_iff.1 hmargin c hc)) (hlines inner hinner)
  · exact List.forall_mem_singleton.2 (h.closed.fixed rfl)

end PacketC.Code
