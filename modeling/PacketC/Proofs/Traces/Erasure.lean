import Mathlib.Data.List.Forall2
import PacketC.Proofs.Output.Stacking
import PacketC.Proofs.Text.Unbroken

/-! Generated code up to its traces. A trace is a line of its own that reports what the code does;
two texts are the same code if they have the same lines once traces are left out, also where other
code follows them. Whatever statements do with the texts of the statements in them, stacking them,
putting them into bodies and moving them to the right, keeps that. -/

namespace PacketC

open Text

/-! ### Traces -/

/-- The characters of a text without the white space at its ends. -/
def Text.trimmed (s : String) : List Char :=
  ((s.toList.dropWhile isBlankChar).reverse.dropWhile isBlankChar).reverse

/-- The line reports what the code does. -/
def isTrace (line : String) : Bool :=
  ["debug(", "dbg_bytes("].any fun mark => mark.toList.isPrefixOf (trimmed line)

def untraced (lines : List String) : List String := lines.filter fun line => !isTrace line

/-- There is nothing but traces in the code. -/
def isSilent (code : String) : Bool := (Text.lines code).all isTrace

theorem untraced_append (a b : List String) : untraced (a ++ b) = untraced a ++ untraced b :=
  List.filter_append ..

theorem untraced_of_isSilent {code : String} (h : isSilent code = true) :
    untraced (Text.lines code) = [] := by
  rw [untraced, List.filter_eq_nil_iff]
  exact fun line hline => by simp [List.all_eq_true.1 h line hline]

/-- What is nothing but traces makes no difference. -/
theorem untraced_flatMap_filter (ps : List String) :
    untraced ((ps.filter (!isSilent ·)).flatMap Text.lines) = untraced (ps.flatMap Text.lines) := by
  induction ps with
  | nil => rfl
  | cons p rest ih =>
    cases hp : isSilent p with
    | true =>
      rw [List.filter_cons_of_neg (by simp [hp]), ih, List.flatMap_cons, untraced_append,
        untraced_of_isSilent hp, List.nil_append]
    | false =>
      rw [List.filter_cons_of_pos (by simp [hp]), List.flatMap_cons, List.flatMap_cons,
        untraced_append, untraced_append, ih]

theorem untraced_flatMap {ls : List String} {f : String → List String}
    (h : ∀ l ∈ ls, isTrace l = true → untraced (f l) = []) :
    untraced (ls.flatMap f) = untraced ((untraced ls).flatMap f) := by
  induction ls with
  | nil => rfl
  | cons l rest ih =>
    have ih := ih fun m hm => h m (.tail l hm)
    by_cases htrace : isTrace l = true
    · rw [List.flatMap_cons, untraced_append, h l (.head rest) htrace, List.nil_append, ih]
      simp [untraced, htrace]
    · rw [List.flatMap_cons, untraced_append, ih]
      simp [untraced, htrace]

theorem trimmed_append_left {a : String} (ha : isBlank a = true) (b : String) :
    trimmed (a ++ b) = trimmed b := by
  rw [trimmed, String.toList_append, List.dropWhile_append_of_pos (isBlank_iff.1 ha),
    ← trimmed]

theorem trimmed_append_right (a : String) {c : Char} (hc : isBlankChar c = true) :
    trimmed (a ++ String.singleton c) = trimmed a := by
  simp only [trimmed, String.toList_append, String.toList_singleton, List.dropWhile_append]
  split
  · rename_i hdrop
    simp [List.isEmpty_iff.1 hdrop, hc]
  · simp [hc]

theorem isTrace_append_left {margin : String} (h : isBlank margin = true) (line : String) :
    isTrace (margin ++ line) = isTrace line := by
  rw [isTrace, trimmed_append_left h, ← isTrace]

/-- What stands between two characters that are not white space is not trimmed. -/
theorem isPrefixOf_trimmed {a rest : List Char} {c d : Char} (hc : isBlankChar c = false)
    (hd : isBlankChar d = false) :
    (c :: (a ++ [d])).isPrefixOf (trimmed (String.ofList (c :: (a ++ d :: rest)))) = true := by
  rw [List.isPrefixOf_iff_prefix, trimmed, String.toList_ofList,
    List.dropWhile_cons_of_neg (by simp [hc])]
  have hsplit : (c :: (a ++ d :: rest)).reverse = rest.reverse ++ d :: (a.reverse ++ [c]) := by simp
  rw [hsplit, List.dropWhile_append, List.dropWhile_cons_of_neg (by simp [hd])]
  split
  · simp
  · exact ⟨(rest.reverse.dropWhile isBlankChar).reverse, by simp⟩

theorem isTrace_debug (rest : List Char) :
    isTrace (String.ofList ("debug(".toList ++ rest)) = true := by
  rw [isTrace, List.any_cons, Bool.or_eq_true]
  exact .inl (isPrefixOf_trimmed (a := ['e', 'b', 'u', 'g']) rfl rfl)

theorem isTrace_dbgBytes (rest : List Char) :
    isTrace (String.ofList ("dbg_bytes(".toList ++ rest)) = true := by
  rw [isTrace, List.any_cons, List.any_cons, Bool.or_eq_true, Bool.or_eq_true]
  exact .inr (.inl (isPrefixOf_trimmed (a := ['b', 'g', '_', 'b', 'y', 't', 'e', 's']) rfl rfl))

/-- One line that starts as a trace does. -/
structure TraceLine (s : String) : Prop where
  unbroken : Unbroken s
  marked : (["debug(", "dbg_bytes("].any fun mark => mark.toList.isPrefixOf s.toList) = true

namespace TraceLine

variable {a b x : String}

theorem append (h : TraceLine a) (hb : Unbroken b) : TraceLine (a ++ b) where
  unbroken := h.unbroken.append hb
  marked := by
    obtain ⟨mark, hmark, hstart⟩ := List.any_eq_true.1 h.marked
    refine List.any_eq_true.2 ⟨mark, hmark, ?_⟩
    rw [String.toList_append, List.isPrefixOf_iff_prefix]
    exact (List.isPrefixOf_iff_prefix.1 hstart).trans (List.prefix_append ..)

theorem arg (h : TraceLine a) (hx : Unbroken x) (hb : Unbroken b) :
    TraceLine (a ++ x ++ b) := (h.append hx).append hb

theorem isTrace (h : TraceLine a) : isTrace a = true := by
  have hmarked := h.marked
  simp only [List.any_cons, List.any_nil, Bool.or_false, Bool.or_eq_true,
    List.isPrefixOf_iff_prefix] at hmarked
  rcases hmarked with ⟨rest, hrest⟩ | ⟨rest, hrest⟩
  · rw [← String.ofList_toList (s := a), ← hrest]
    exact isTrace_debug rest
  · rw [← String.ofList_toList (s := a), ← hrest]
    exact isTrace_dbgBytes rest

theorem isSilent (h : TraceLine a) : isSilent a = true := by
  have hne : a ≠ "" := by
    rintro rfl
    cases h.marked
  rw [PacketC.isSilent, lines_of_unbroken hne h.unbroken.not_mem, List.all_cons, h.isTrace]
  rfl

end TraceLine

/-- A line above others loses at most a carriage return at its end. -/
theorem linesAbove_of_unbroken {s : String} (h : '\n' ∉ s.toList) :
    ∃ line, linesAbove s = [line] ∧ isTrace line = isTrace s := by
  have hlines : linesAbove s = (lineChars (s.toList ++ ['\n'])).map String.ofList := by
    rw [linesAbove, Text.lines, String.toList_append]
    rfl
  rcases lineChars_concat_feed h with hline | ⟨cs, hcs, hline⟩ <;> rw [hlines, hline]
  · exact ⟨s, by simp, rfl⟩
  · have hs : s = String.ofList cs ++ String.singleton '\r' :=
      String.toList_injective (by simp [hcs])
    refine ⟨String.ofList cs, rfl, ?_⟩
    rw [hs, isTrace, isTrace, trimmed_append_right _ rfl]

/-! ### Texts -/

/-- The same code up to traces, at the end of a text and above other code. -/
structure SameCode (a b : String) : Prop where
  lines : untraced (Text.lines a) = untraced (Text.lines b)
  above : untraced (linesAbove a) = untraced (linesAbove b)
  blank : isBlank a = isBlank b
  left : Unfinished a
  right : Unfinished b

namespace SameCode

variable {a b c d : String}

theorem refl (h : Unfinished a) : SameCode a a := ⟨rfl, rfl, rfl, h, h⟩

theorem ended (h : Ended a) : SameCode a a := refl h.unfinished

theorem symm (h : SameCode a b) : SameCode b a :=
  ⟨h.lines.symm, h.above.symm, h.blank.symm, h.right, h.left⟩

theorem trans (h : SameCode a b) (k : SameCode b c) : SameCode a c :=
  ⟨h.lines.trans k.lines, h.above.trans k.above, h.blank.trans k.blank, h.left, k.right⟩

/-- The same code with the same code below it. -/
theorem below (h : SameCode a b) (k : SameCode c d) (hc : isBlank c = false) :
    SameCode (a ++ "\n" ++ c) (b ++ "\n" ++ d) where
  lines := by
    rw [lines_append_break, lines_append_break, untraced_append, untraced_append, h.above,
      k.lines]
  above := by
    rw [linesAbove_append_break, linesAbove_append_break, untraced_append,
      untraced_append, h.above, k.above]
  blank := by simp only [isBlank_append, h.blank, k.blank]
  left := k.left.append _ (ne_empty_of_isBlank hc)
  right := k.right.append _ (ne_empty_of_isBlank (k.blank ▸ hc))

/-- A trace below the code. -/
theorem trace_below (ha : Ended a) (hb : Ended b) (hsilent : isSilent b = true) :
    SameCode (a ++ "\n" ++ b) a where
  lines := by
    rw [lines_append_break, untraced_append, untraced_of_isSilent hsilent, List.append_nil,
      ha.linesAbove_eq]
  above := by
    rw [linesAbove_append_break, untraced_append, hb.linesAbove_eq,
      untraced_of_isSilent hsilent, List.append_nil]
  blank := by rw [(hb.append _).isBlank_eq_false, ha.isBlank_eq_false]
  left := (hb.append _).unfinished
  right := ha.unfinished

/-- A trace above the code. -/
theorem trace_above (ha : Ended a) (hsilent : isSilent a = true) (hb : Unfinished b)
    (hblank : isBlank b = false) : SameCode (a ++ "\n" ++ b) b where
  lines := by
    rw [lines_append_break, untraced_append, ha.linesAbove_eq, untraced_of_isSilent hsilent,
      List.nil_append]
  above := by
    rw [linesAbove_append_break, untraced_append, ha.linesAbove_eq,
      untraced_of_isSilent hsilent, List.nil_append]
  blank := by simp [isBlank_append, hblank]
  left := hb.append _ (ne_empty_of_isBlank hblank)
  right := hb

end SameCode

/-! ### Pieces one below the other -/

/-- Pieces that are the same code one below the other. -/
structure SameStack (ps qs : List String) : Prop where
  code : SameCode (unlines ps) (unlines qs)
  empty : ps = [] ↔ qs = []
  left : ∀ p ∈ ps, isBlank p = false
  right : ∀ q ∈ qs, isBlank q = false

namespace SameStack

variable {ps qs ps' qs' : List String}

theorem of_ended (h : ∀ p ∈ ps, Ended p) : SameStack ps ps := by
  refine ⟨.refl ?_, .rfl, fun p hp => (h p hp).isBlank_eq_false, fun p hp =>
    (h p hp).isBlank_eq_false⟩
  by_cases hps : ps = []
  · simp [hps, Unfinished, unlines]
  · exact (Ended.unlines hps h).unfinished

theorem nil : SameStack [] [] := of_ended nofun

theorem append (h : SameStack ps qs) (k : SameStack ps' qs') :
    SameStack (ps ++ ps') (qs ++ qs') where
  code := by
    by_cases hps : ps = []
    · rw [hps, h.empty.1 hps]
      exact k.code
    by_cases hps' : ps' = []
    · rw [hps', k.empty.1 hps', List.append_nil, List.append_nil]
      exact h.code
    rw [unlines_append hps hps', unlines_append (mt h.empty.2 hps) (mt k.empty.2 hps')]
    exact h.code.below k.code (isBlank_unlines hps' k.left)
  empty := by simp only [List.append_eq_nil_iff, h.empty, k.empty]
  left := List.forall_mem_append.2 ⟨h.left, k.left⟩
  right := List.forall_mem_append.2 ⟨h.right, k.right⟩

/-- One piece, which is left out if it is blank. -/
theorem single {a b : String} (h : SameCode a b) :
    SameStack ([a].filter (!isBlank ·)) ([b].filter (!isBlank ·)) := by
  cases hb : isBlank b with
  | true => simpa [h.blank, hb] using nil
  | false =>
    have ha : isBlank a = false := h.blank.trans hb
    simp only [List.filter_cons, List.filter_nil, ha, hb]
    refine ⟨by simpa using h, by simp, by simpa using ha, by simpa using hb⟩

end SameStack

variable {ps qs : List String}

/-- An empty statement takes the place of no pieces at all. -/
theorem SameStack.orEmpty (h : SameStack ps qs) :
    SameCode (if (unlines ps).isEmpty then ";" else unlines ps)
      (if (unlines qs).isEmpty then ";" else unlines qs) := by
  have hne : ∀ ps : List String, ps ≠ [] → (∀ p ∈ ps, isBlank p = false) →
      ¬(unlines ps).isEmpty = true := fun ps hps hall hempty =>
    ne_empty_of_isBlank (isBlank_unlines hps hall) (String.isEmpty_iff.1 hempty)
  by_cases hps : ps = []
  · rw [hps, h.empty.1 hps]
    exact .refl (by simp [unlines, Unfinished])
  · rw [if_neg (hne ps hps h.left), if_neg (hne qs (mt h.empty.2 hps) h.right)]
    exact h.code

/-- Texts one below the other that are the same code one by one. -/
theorem SameStack.parts (h : List.Forall₂ SameCode ps qs) :
    SameStack (ps.filter (!isBlank ·)) (qs.filter (!isBlank ·)) := by
  induction h with
  | nil => exact .nil
  | @cons p q ps qs hcode _ ih =>
    have hrest := (SameStack.single hcode).append ih
    rwa [← List.filter_append, ← List.filter_append] at hrest

/-! ### Frames -/

/-- Code around a body that is the same up to traces. A trace is moved out of a body only after
other code has been, so there is no code before the one body if there is none before the other. -/
structure SameFrame (f g : Frame) : Prop where
  pre : f.pre.filter (!isSilent ·) = g.pre.filter (!isSilent ·)
  empty : f.pre = [] ↔ g.pre = []
  post : f.post = g.post
  left : ∀ code ∈ f.pre, Ended code
  right : ∀ code ∈ g.pre, Ended code
  after : ∀ code ∈ f.post, Ended code

namespace SameFrame

variable {f g : Frame} {a b : String}

theorem lines (h : SameFrame f g) :
    untraced (f.pre.flatMap Text.lines) = untraced (g.pre.flatMap Text.lines) := by
  rw [← untraced_flatMap_filter, h.pre, untraced_flatMap_filter]

theorem stack (h : SameFrame f g) : SameStack f.pre g.pre := by
  refine ⟨?_, h.empty, fun p hp => (h.left p hp).isBlank_eq_false, fun p hp =>
    (h.right p hp).isBlank_eq_false⟩
  by_cases hf : f.pre = []
  · rw [hf, h.empty.1 hf]
    exact SameStack.nil.code
  have hleft := Ended.unlines hf h.left
  have hright := Ended.unlines (mt h.empty.2 hf) h.right
  have hlines : untraced (Text.lines (unlines f.pre)) =
      untraced (Text.lines (unlines g.pre)) := by
    rw [lines_unlines h.left, lines_unlines h.right, h.lines]
  refine ⟨hlines, ?_, ?_, hleft.unfinished, hright.unfinished⟩
  · rw [hleft.linesAbove_eq, hright.linesAbove_eq, hlines]
  · rw [hleft.isBlank_eq_false, hright.isBlank_eq_false]

/-- The pieces that a body is put together from. -/
theorem stacked_eq {f : Frame} (hpre : ∀ code ∈ f.pre, Ended code)
    (hpost : ∀ code ∈ f.post, Ended code) (ha : Unfinished a) :
    stacked (f.pre ++ a :: f.post) =
      unlines (f.pre ++ ([a].filter (!isBlank ·) ++ f.post)) := by
  have hkeep : ∀ ps : List String, (∀ p ∈ ps, Ended p) →
      ps.filter (!isBlank ·) = ps := fun ps h =>
    List.filter_eq_self.2 fun p hp => by simp [(h p hp).isBlank_eq_false]
  rw [stacked_eq_unlines, kept_of_unfinished, List.filter_append, ← List.singleton_append,
    List.filter_append, hkeep _ hpre, hkeep _ hpost]
  refine List.forall_mem_append.2 ⟨fun p hp => (hpre p hp).unfinished, ?_⟩
  exact List.forall_mem_cons.2 ⟨ha, fun p hp => (hpost p hp).unfinished⟩

/-- A body without code stays one. -/
theorem bodyText (h : SameFrame f g) (hcode : SameCode a b) :
    SameCode (Lower.bodyText a f) (Lower.bodyText b g) := by
  have hstack := h.stack.append ((SameStack.single hcode).append (.of_ended h.after))
  have hleft := stacked_eq h.left h.after hcode.left
  have hright := stacked_eq h.right (h.post ▸ h.after) hcode.right
  rw [h.post] at hstack hleft
  unfold Lower.bodyText
  rw [h.post, hleft, hright]
  exact hstack.orEmpty

end SameFrame

theorem SameCode.stacked (h : List.Forall₂ SameCode ps qs) :
    SameCode (stacked ps) (stacked qs) := by
  have hends : (∀ p ∈ ps, Unfinished p) ∧ ∀ q ∈ qs, Unfinished q := by
    induction h with
    | nil => exact ⟨nofun, nofun⟩
    | cons hcode _ ih =>
      exact ⟨List.forall_mem_cons.2 ⟨hcode.left, ih.1⟩, List.forall_mem_cons.2 ⟨hcode.right, ih.2⟩⟩
  rw [stacked_eq_unlines, stacked_eq_unlines, kept_of_unfinished hends.1,
    kept_of_unfinished hends.2]
  exact (SameStack.parts h).code

theorem SameCode.blockText (c : Config) (lock : Option String) (h : List.Forall₂ SameCode ps qs) :
    SameCode (Lower.blockText c lock ps) (Lower.blockText c lock qs) := by
  unfold Lower.blockText
  split
  · exact .stacked h
  · have hended : ∀ name arg : String, Ended s!"{name}({arg})" := fun _ _ => .append _ rfl
    have hsame : ∀ name arg : String, SameCode s!"{name}({arg})" s!"{name}({arg})" := fun _ _ =>
      .refl (hended ..).unfinished
    exact .stacked (List.rel_append (.cons (hsame ..) h) (.cons (hsame ..) .nil))

/-! ### Layouts -/

/-- Lines laid out at the same depth that are the same code. -/
structure SameLayout (l m : Layout) : Prop where
  level : l.level = m.level
  unit : l.unit = m.unit
  blank : isBlank l.unit = true
  unbroken : '\n' ∉ l.unit.toList
  above : untraced (l.lines.flatMap linesAbove) = untraced (m.lines.flatMap linesAbove)

namespace SameLayout

variable {l m : Layout}

variable (h : SameLayout l m)

include h

theorem margin_eq : l.margin = m.margin := by
  rw [Layout.margin, Layout.margin, h.level, h.unit]

omit h in
theorem empty (style : Indentation) : SameLayout (.empty style) (.empty style) := by
  have hblank : isBlankChar ' ' = true := rfl
  refine ⟨rfl, rfl, ?_, ?_, rfl⟩ <;> cases style with
  | tabs => decide
  | spaces count => simp [Layout.empty, Indentation.unit, isBlank, hblank]

theorem indent : SameLayout l.indent m.indent :=
  ⟨congrArg (· + 1) h.level, h.unit, h.blank, h.unbroken, h.above⟩

theorem dedent : SameLayout l.dedent m.dedent :=
  ⟨congrArg (· - 1) h.level, h.unit, h.blank, h.unbroken, h.above⟩

theorem line (s : String) : SameLayout (l.line s) (m.line s) := by
  refine ⟨h.level, h.unit, h.blank, h.unbroken, ?_⟩
  simp only [Layout.line, List.flatMap_append, untraced_append, h.above, h.margin_eq]

/-- The margin is white space within a line. -/
theorem margin_blank : isBlank l.margin = true ∧ '\n' ∉ l.margin.toList := by
  have hmem : ∀ c ∈ l.margin.toList, c ∈ l.unit.toList := by
    intro c hc
    simp only [Layout.margin, String.toList_join, List.mem_flatMap, List.mem_replicate] at hc
    obtain ⟨s, ⟨_, rfl⟩, hc⟩ := hc
    exact hc
  exact ⟨isBlank_iff.2 fun c hc => isBlank_iff.1 h.blank c (hmem c hc),
    fun hn => h.unbroken (hmem _ hn)⟩

theorem text {a b : String} (hcode : SameCode a b) : SameLayout (l.text a) (m.text b) := by
  have hmoved : ∀ s,
      untraced ((((Text.lines s).filter (!isBlank ·)).map (l.margin ++ ·)).flatMap
          linesAbove) =
        untraced (((untraced (Text.lines s)).filter (!isBlank ·)).flatMap
          fun line => linesAbove (l.margin ++ line)) := by
    intro s
    have hfilter : untraced ((Text.lines s).filter (!isBlank ·)) =
        (untraced (Text.lines s)).filter (!isBlank ·) := by
      simp only [untraced, List.filter_filter, Bool.and_comm]
    rw [List.flatMap_map, untraced_flatMap, hfilter]
    intro line hline htrace
    have hunbroken : '\n' ∉ (l.margin ++ line).toList := by
      rw [String.toList_append, List.mem_append, not_or]
      exact ⟨h.margin_blank.2, unbroken_of_mem_lines (List.mem_filter.1 hline).1⟩
    obtain ⟨moved, hmoved, hsame⟩ := linesAbove_of_unbroken hunbroken
    rw [hmoved]
    simp [untraced, hsame, isTrace_append_left h.margin_blank.1, htrace]
  rw [Layout.text, Layout.text, Layout.linesOf_eq, Layout.linesOf_eq]
  refine ⟨h.level, h.unit, h.blank, h.unbroken, ?_⟩
  simp only [List.flatMap_append, untraced_append, h.above, ← h.margin_eq]
  rw [hmoved, hmoved, hcode.lines]

theorem finish {s : String} (hs : Ended s) : SameCode (l.line s).finish (m.line s).finish := by
  have hended : ∀ l : Layout, Ended (l.line s).finish := by
    intro l
    rw [Layout.finish, Layout.line]
    by_cases hl : l.lines = []
    · rw [hl, List.nil_append, unlines_singleton]
      exact hs.append _
    · rw [unlines_append hl (List.cons_ne_nil _ _), unlines_singleton]
      exact (hs.append _).append _
  have hlines : untraced (Text.lines (l.line s).finish) =
      untraced (Text.lines (m.line s).finish) := by
    simp only [Layout.finish, Layout.line, lines_unlines_concat, untraced_append, h.above,
      h.margin_eq]
  refine ⟨hlines, ?_, ?_, (hended l).unfinished, (hended m).unfinished⟩
  · rw [(hended l).linesAbove_eq, (hended m).linesAbove_eq, hlines]
  · rw [(hended l).isBlank_eq_false, (hended m).isBlank_eq_false]

end SameLayout

theorem SameCode.condText (style : Indentation) (condition : String) {t t' f f' : String}
    (ht : SameCode t t') (hf : SameCode f f') :
    SameCode (Lower.condText style condition t f) (Lower.condText style condition t' f') :=
  ((((((((SameLayout.empty style).line _).indent.text ht).dedent).line _).indent).text
    hf).dedent).finish rfl

/-- Arms with the same label and the same code. -/
structure SameArm (a b : Lower.Arm) : Prop where
  label : a.label = b.label
  body : SameCode a.body b.body

theorem SameLayout.arms {as bs : List Lower.Arm} (h : List.Forall₂ SameArm as bs) {l m : Layout}
    (hl : SameLayout l m) :
    SameLayout (as.foldl Lower.Arm.layout l) (bs.foldl Lower.Arm.layout m) := by
  induction h generalizing l m with
  | nil => exact hl
  | @cons a b as bs harm _ ih =>
    have hhead : a.head = b.head := by rw [Lower.Arm.head, Lower.Arm.head, harm.label]
    refine ih ?_
    rw [Lower.Arm.layout, Lower.Arm.layout, hhead]
    exact ((((hl.line _).indent).text harm.body).line _).dedent

theorem SameCode.switchText (style : Indentation) (selector : String) {as bs : List Lower.Arm}
    (h : List.Forall₂ SameArm as bs) :
    SameCode (Lower.switchText style selector as) (Lower.switchText style selector bs) := by
  have hdefault : (as.any fun a => a.label.isNone) = bs.any fun a => a.label.isNone := by
    induction h with
    | nil => rfl
    | cons harm _ ih => rw [List.any_cons, List.any_cons, harm.label, ih]
  have hopen : SameLayout ((Layout.empty style).openBlock s!"switch({selector})")
      ((Layout.empty style).openBlock s!"switch({selector})") :=
    ((SameLayout.empty style).line _).indent
  have harms := SameLayout.arms h hopen
  unfold Lower.switchText Layout.block
  dsimp only
  rw [hdefault]
  split
  · exact harms.dedent.finish rfl
  · exact (harms.line _).dedent.finish rfl

end PacketC
