import PacketC.Proofs.Prose.Stores

/-! Actions that keep a name in order. An action tracks the name if, where the texts in hand use it
only if it is declared, it keeps the invariant and the texts of its result do the same. There is a
rule for each way in which a name is handed out and declared. To keep the name in order is a manner
of writing, so all expressions do from which no transition is reached. -/

namespace PacketC

open Code

/-- No transition is reached from the expression. -/
def Program.Quiet (p : Program) (id : ExprId) : Prop :=
  ∀ target e, p.Reaches id target → p.At target e → ∀ keys arms, e.node ≠ .select keys arms

theorem Program.Quiet.part {p : Program} {id child : ExprId} (h : p.Quiet id)
    (hp : p.Part id child) : p.Quiet child := fun target e hr he =>
  h target e (.part hp hr) he

namespace Lower

/-- Where the condition holds, the action keeps the name in order, and its result has the property.
Both may depend on whether the name is declared. -/
structure Tracks (env : Env) (n : String) {α : Type} (C : Prop → Prop) (x : LowerM α)
    (P : α → Prop → Prop) : Prop where
  grows : ∀ {s a t}, x env s = (.ok a, t) → Extends s t
  run : ∀ {s a t}, x env s = (.ok a, t) → Inv env.program n s → Known (Declared n s) C →
    Clear n t → Inv env.program n t ∧ Known (Declared n t) (P a) ∧ Step n s t

namespace Tracks

variable {α β : Type} {env : Env} {n : String} {C : Prop → Prop} {P : α → Prop → Prop}
  {Q : β → Prop → Prop} {x : LowerM α}

theorem bind {f : α → LowerM β} (hx : Tracks env n C x P)
    (hf : ∀ a, Returns env x a → Tracks env n (fun w => P a w ∧ C w) (f a) Q) :
    Tracks env n C (x >>= f) Q where
  grows h := by
    obtain ⟨a, u, hu, h⟩ := exists_of_bind h
    exact (hx.grows hu).trans ((hf a ⟨_, _, hu⟩).grows h)
  run {s b t} h hs hC hclear := by
    obtain ⟨a, u, hu, h⟩ := exists_of_bind h
    have hfa := hf a ⟨s, u, hu⟩
    obtain ⟨hinv, hP, hstep⟩ := hx.run hu hs hC (hclear.of_extends (hfa.grows h))
    obtain ⟨hinv', hQ, hstep'⟩ := hfa.run h hinv (hP.and (hC.mono hstep.declared)) hclear
    exact ⟨hinv', hQ, hstep.trans (hx.grows hu) hstep'⟩

/-- An action that touches neither names nor frames. -/
theorem still
    (hx : ∀ {s a t}, x env s = (.ok a, t) → t.emission = s.emission ∧ t.memory.names =
      s.memory.names) (hP : ∀ a, Returns env x a → ∀ {w}, C w → P a w) : Tracks env n C x P where
  grows h := by
    obtain ⟨hemission, hnames⟩ := hx h
    exact .of_names_eq hnames (by rw [hemission])
  run {s a t} h hs hC _ := by
    obtain ⟨hemission, hnames⟩ := hx h
    have hdeclared : Declared n t = Declared n s := by rw [Declared, hemission]; rfl
    refine ⟨?_, (hdeclared ▸ hC).imp (hP a ⟨s, t, h⟩), ?_⟩
    · exact hs.of_extends (.of_names_eq hnames (by rw [hemission])) (by rw [hemission])
        (hnames ▸ hs.supply)
    · exact ⟨fun hd => hdeclared ▸ hd, fun _ _ hd => hdeclared ▸ hd⟩

theorem pure {a : α} (h : ∀ {w}, C w → P a w) : Tracks env n C (Pure.pure a) P :=
  still (fun h => by cases h; exact ⟨rfl, rfl⟩) fun b hb => hb.of_pure ▸ h

theorem weaken {D : Prop → Prop} (hx : Tracks env n C x P) (h : ∀ {w}, D w → C w) :
    Tracks env n D x P :=
  ⟨hx.grows, fun hrun hs hD hclear => hx.run hrun hs (hD.imp h) hclear⟩

theorem inEnv {y : LowerM α} (h : x env = y env) (hy : Tracks env n C y P) :
    Tracks env n C x P := ⟨fun hx => hy.grows (h ▸ hx), fun hx => hy.run (h ▸ hx)⟩

theorem throw {e : LowerError} : Tracks env n C (MonadExcept.throw e : LowerM α) P := ⟨nofun, nofun⟩

/-! ### Operations on the state -/

theorem note (ds : List Diagnostic) : Tracks env n C (Lower.note ds) fun _ _ => True :=
  still (fun h => by cases h; exact ⟨rfl, rfl⟩) fun _ _ _ _ => trivial

theorem firstTime (id : ExprId) : Tracks env n C (Lower.firstTime id) fun _ _ => True := by
  refine still (fun h => ?_) fun _ _ _ _ => trivial
  rw [run_firstTime] at h
  split at h <;> cases h <;> exact ⟨rfl, rfl⟩

theorem hoist {code : String} (h : ∀ {w}, C w → Allowed n w code) :
    Tracks env n C (Lower.hoist code) fun _ _ => True where
  grows h := by
    cases h
    exact .prepend _ code
  run {s _ t} hrun hs hC _ := by
    cases hrun
    obtain ⟨hinv, hiff⟩ := hs.prepend (h hC.here)
    exact ⟨hinv, fun _ _ => trivial, hiff.2, fun _ _ => hiff.1⟩

theorem defer {code : String} (h : ∀ {w}, C w → Allowed n w code) :
    Tracks env n C (Lower.defer code) fun _ _ => True where
  grows h := by
    cases h
    exact .of_names_eq rfl rfl
  run {s _ t} hrun hs hC _ := by
    cases hrun
    exact ⟨hs.append (h hC.here), fun _ _ => trivial, id, fun _ _ hd => hd⟩

/-! ### Names -/

/-- A declaration after an action, for a name that was handed out before. What is asked of the name
is that there is no other declaration of it in the frame. -/
theorem declare_run {code : α → String} {k : α → LowerM β} {m : String} (hx : Tracks env n C x P)
    (hcode : ∀ a {w}, P a w ∧ C w → Announces n w m (code a))
    (hk : ∀ a, Tracks env n (fun w => Allowed n w m ∧ P a w ∧ C w) (k a) Q) {s t : State} {b : β}
    (h : (do let a ← x; Lower.hoist (code a); k a) env s = (.ok b, t)) (hs : Inv env.program n s)
    (hC : Known (Declared n s) C) (hclear : Clear n t) (hm : m ∈ s.memory.names.used)
    (honly : ∀ a u, x env s = (.ok a, u) → Inv env.program n u → Extends s u → Step n s u → m = n →
      (Declared n u → code a ∈ u.emission.current.pre) ∧ ∀ hint (id : ExprId),
      u.memory.names.memo.lookup (hint, id.text) = some n → issue env.program hint id n = some
      (code a)) :
    Inv env.program n t ∧ Known (Declared n t) (Q b) ∧ (Declared n s → Declared n t) ∧
      (m ≠ n → n ∈ s.memory.names.used → (∀ key, s.memory.names.memo.lookup key ≠ some n) →
        Declared n t → Declared n s) := by
  obtain ⟨a, u, hu, h⟩ := exists_of_bind h
  obtain ⟨_, v, hv, h⟩ := exists_of_bind h
  cases hv
  have hgrows := (hk a).grows h
  have hclearu : Clear n u := hclear.of_extends ((Extends.prepend u (code a)).trans hgrows)
  obtain ⟨hinv, hP, hstep⟩ := hx.run hu hs hC hclearu
  have hknown := hP.and (hC.mono hstep.declared)
  have hext := hx.grows hu
  have honly := honly a u hu hinv hext hstep
  obtain ⟨hinv', hallowed, hmono, hback⟩ := hinv.declare hclearu (hext.names.used m hm)
    (hcode a hknown.here) (fun heq => (honly heq).1) fun heq => (honly heq).2
  obtain ⟨hinv'', hQ, hstep'⟩ :=
    (hk a).run h hinv' ((Known.allowed hallowed).and (hknown.mono hmono)) hclear
  refine ⟨hinv'', hQ, fun hd => hstep'.declared (hmono (hstep.declared hd)), ?_⟩
  intro hne hused hmemo hd
  refine hstep.barred hused hmemo (hback hne (hstep'.barred ?_ ?_ hd))
  · exact hext.names.used n hused
  · exact hext.unlisted hused hmemo

theorem grows_declare {code : α → String} {k : α → LowerM β} {D : α → Prop → Prop}
    (hx : Tracks env n C x P) (hk : ∀ a, Tracks env n (D a) (k a) Q) {s t : State} {b : β}
    (h : (do let a ← x; Lower.hoist (code a); k a) env s = (.ok b, t)) : Extends s t := by
  obtain ⟨a, u, hu, h⟩ := exists_of_bind h
  obtain ⟨_, v, hv, h⟩ := exists_of_bind h
  cases hv
  exact ((hx.grows hu).trans (.prepend u (code a))).trans ((hk a).grows h)

section Declare

variable {hint : String} {x : String → LowerM α} {code : String → α → String}
  {k : String → α → LowerM β} (hx : ∀ m, Tracks env n C (x m) P)
  (hcode : ∀ m a {w}, P a w ∧ C w → Announces n w m (code m a))
  (hk : ∀ m a, Tracks env n (fun w => Allowed n w m ∧ P a w ∧ C w) (k m a) Q)

include hx hcode hk

/-- A name for one use, then an action, then the declaration of the name. -/
theorem freshThen : Tracks env n C
    (do let m ← Lower.freshName hint; let a ← x m; Lower.hoist (code m a); k m a) Q where
  grows {s b t} h := by
    obtain ⟨m, u, hu, h⟩ := exists_of_bind h
    rw [run_freshName] at hu
    cases hu
    exact (Extends.fresh s hint).trans (grows_declare (hx _) (hk _) h)
  run {s b t} h hs hC hclear := by
    obtain ⟨m, u, hu, h⟩ := exists_of_bind h
    rw [run_freshName] at hu
    cases hu
    have hnew := s.memory.names.numbered_nextNumber_notMem hint
    obtain ⟨done, hdone⟩ := hs.supply
    have hext := Extends.fresh s hint
    have hrun := declare_run (hx _) (hcode _) (hk _) h
      (hs.of_extends hext rfl ⟨_, hdone.fresh hint⟩) hC hclear (List.mem_cons_self ..) ?_
    · obtain ⟨hinv, hQ, hmono, hback⟩ := hrun
      refine ⟨hinv, hQ, hmono, fun hused hmemo => hback ?_ (.tail _ hused) hmemo⟩
      rintro rfl
      exact hnew hused
    · -- nobody but this use has the name, and it is declared here for the first time
      rintro a u _ _ hextu hstep rfl
      have hmemo : ∀ key, s.memory.names.memo.lookup key ≠ some _ := fun key hkey =>
        hnew (hdone.mem_used ((hdone.memo _ _ _).1 hkey))
      have hnot : ¬ Declared _ u := fun hd =>
        hnew (hs.owned (hstep.barred (List.mem_cons_self ..) hmemo hd))
      refine ⟨fun hd => absurd hd hnot, fun hint' id hkey => ?_⟩
      exact absurd hkey (hextu.unlisted (List.mem_cons_self ..) hmemo _)

/-- The name of an expression, then an action, then the declaration of the name. -/
theorem nameThen {id : ExprId}
    (hissue : ∀ m a, issue env.program hint id m = some (code m a)) : Tracks env n C
      (do let m ← Lower.nameOf hint id; let a ← x m; Lower.hoist (code m a); k m a) Q where
  grows {s b t} h := by
    obtain ⟨m, u, hu, h⟩ := exists_of_bind h
    rw [run_nameOf] at hu
    cases hu
    exact (Extends.named s hint id).trans (grows_declare (hx _) (hk _) h)
  run {s b t} h hs hC hclear := by
    obtain ⟨m, u, hu, h⟩ := exists_of_bind h
    rw [run_nameOf] at hu
    cases hu
    obtain ⟨done, hdone⟩ := hs.supply
    have hdone' := hdone.named hint id.text
    have hlookup := s.memory.names.lookup_named hint id.text
    have hext := Extends.named s hint id
    have hrun := declare_run (hx _) (hcode _) (hk _) h (hs.of_extends hext rfl ⟨_, hdone'⟩) hC
      hclear (hdone'.mem_used (List.mem_cons_self ..)) ?_
    · obtain ⟨hinv, hQ, hmono, hback⟩ := hrun
      refine ⟨hinv, hQ, hmono, fun hused hmemo => ?_⟩
      refine hback ?_ (hext.names.used n hused) (hext.unlisted hused hmemo)
      rintro rfl
      exact hext.unlisted hused hmemo _ hlookup
    · -- the expression has the name for itself, and declares it the same way each time
      rintro a u _ hinv hextu _ rfl
      have hmine := hextu.names.kept _ _ hlookup
      refine ⟨fun ⟨c, hc, hd⟩ => ?_, fun hint' id' hkey => ?_⟩
      · have hc' := hinv.tied hint id hmine c hc hd
        rw [hissue _ a] at hc'
        exact Option.some.inj hc' ▸ hc
      · obtain ⟨done', hdone'⟩ := hinv.supply
        have howner := hdone'.owner _ ((hdone'.memo _ _ _).1 hkey) _
          ((hdone'.memo _ _ _).1 hmine) rfl
        simp only [NameSupply.Request.mk.injEq, Option.some.injEq] at howner
        rw [howner.1, Handle.text_injective howner.2]
        exact hissue _ a

end Declare

/-- The name of a buffer is another one. -/
theorem bufferName (id : ExprId) :
    Tracks env n C (Lower.nameOf "buffer" id) fun m _ => ¬ Mentions n m where
  grows h := by
    cases h
    exact .named _ "buffer" id
  run {s m t} h hs _ hclear := by
    obtain ⟨done, hdone⟩ := hs.supply
    have hdone := hdone.named "buffer" id.text
    have hlookup := s.memory.names.lookup_named "buffer" id.text
    have hext := Extends.named s "buffer" id
    rw [run_nameOf] at h
    cases h
    refine ⟨hs.of_extends hext rfl ⟨_, hdone⟩, fun _ _ => hclear.others _
      (hdone.mem_used (List.mem_cons_self ..)) ?_, fun hd => hd, fun _ _ hd => hd⟩
    rintro rfl
    exact hclear.buffers id hlookup

end Tracks

/-! ### The manner -/

section Fields

variable {n : String} {C : Prop} {l : PacketField}

theorem ready_extractPacket (hn : Numbered n) (hl : l.Apart n) {field buffer : String}
    (hf : ¬ Mentions n field) (hb : Covered n C buffer) :
    Ready n C (extractPacket l field buffer) :=
  (((Ready.ofList hn rfl).arg (covered_of_clean hl.headerId) rfl).arg (covered_of_clean hf)
    rfl).arg hb rfl

theorem ready_setField (hn : Numbered n) (hl : l.Apart n) {value : String}
    (hv : Covered n C value) : Ready n C (setField l value) :=
  ((((Ready.ofList hn rfl).arg (covered_of_clean hl.headerId) rfl).arg
    (covered_of_clean hl.fieldId) rfl).arg hv rfl).arg (covered_toString hn _) rfl

theorem ready_modifyField (hn : Numbered n) (hl : l.Apart n) {buffer bytes : String}
    (hb : Covered n C buffer) (hs : Covered n C bytes) : Ready n C (modifyField l buffer bytes) :=
  ((((Ready.ofList hn rfl).arg (covered_of_clean hl.headerId) rfl).arg
    (covered_of_clean hl.fieldId) rfl).arg hb rfl).arg hs rfl

theorem clean_packetValue (hn : Numbered n) (hl : l.Apart n) : ¬ Mentions n (packetValue l) :=
  ((Joint.ofList hn rfl).arg hl.headerId rfl).close hl.fieldId rfl

end Fields

/-- A declared name stands between words of its type. -/
theorem clean_declare {type name : String} (htype : ¬ Mentions n type)
    (hname : ¬ Mentions n name) : ¬ Mentions n (Ty.declare type name) := by
  have hparts : ∀ parts : List String, (∀ w ∈ parts, w ∈ Text.words type) →
      ¬ Mentions n (Text.unwords parts) := by
    intro parts hparts hm
    rw [Mentions, words_unwords] at hm
    obtain ⟨part, hpart, hm⟩ := List.mem_flatMap.1 hm
    refine htype ?_
    rw [Mentions, ← flatMap_words_words]
    exact List.mem_flatMap.2 ⟨part, hparts part hpart, hm⟩
  have hspaced : ∀ {a b : String}, ¬ Mentions n a → ¬ Mentions n b →
      ¬ Mentions n (a ++ " " ++ b) := fun ha hb =>
    covered_append (C := False) (.inl (ends_append rfl))
      (covered_append (.inr rfl) ha List.not_mem_nil) hb
  have htail : ∀ k, ¬ Mentions n (Text.unwords ((Text.words type).drop k)) := fun k =>
    hparts _ fun w hw => List.mem_of_mem_drop hw
  have hnamed : ∀ k, ¬ Mentions n (Text.unwords ((Text.words type).take k) ++ " " ++ name) :=
    fun k => hspaced (hparts _ fun w hw => List.mem_of_mem_take hw) hname
  fun_cases Ty.declare type name with
  | case1 => exact hnamed _
  | case2 _ _ _ cs hcs =>
    refine covered_append (C := False) (.inr ?_) (hnamed _) (htail _)
    rw [starts, hcs]
    rfl
  | case3 => exact hspaced (hnamed _) (htail _)

end Lower

open Lower

variable {env : Env} {n : String}

theorem Apart.opening_announces (ha : Apart env.toTypeScope n) {head m tail : String} {C : Prop}
    (hintro : Introduces env.toTypeScope head) (hhead : ¬ Mentions n head) (hfollows : Follows tail)
    (htail : ¬ Mentions n tail) :
    Opening true (fun x => ¬ Mentions n m → Covered n C x) (Announces n C m)
      (head ++ m ++ tail) := by
  have hn := ha.numbered
  obtain ⟨type, rfl, hlike⟩ : ∃ type, head = type ++ " " ∧ TypeLike type := by
    cases hintro with
    | like hlike => exact ⟨_, rfl, hlike⟩
    | type htype => exact ⟨_, rfl, ha.typeLike htype⟩
  have hclean : ¬ Mentions n m → ¬ Mentions n (type ++ " " ++ m ++ tail) :=
    ((closed_covered (C := False) hn).declaration hintro.ends hhead id hfollows htail).holds
  constructor
  case closed =>
    exact ⟨fun h _ => (closed_covered hn).fixed h, fun hseam ha hb hm =>
      covered_append hseam (ha hm) (hb hm)⟩
  case holds => exact fun hm => covered_of_clean (hclean hm)
  case ends => exact ends_append hfollows.ends
  case last =>
    refine fun {x} hx => ⟨fun hm _ hword => ?_, fun _ hm => ⟨?_, ?_⟩⟩
    · subst hm
      have htype : ¬ Mentions m type := fun h => hhead ((mentions_append (.inr rfl)).2 (.inl h))
      have hdeclares : Declares m (type ++ " " ++ m ++ tail) :=
        ⟨type, tail, rfl, hword, hlike.starts, hlike.chars, htype, hfollows.follows⟩
      exact hdeclares.append x
    · exact covered_append (.inl (ends_append hfollows.ends)) (covered_of_clean (hclean hm))
        (hx hm)
    · rw [String.toList_append, later_append]
      · exact fun hl => hclean hm (mem_wordsIn_of_mem_later hl)
      · rw [String.toList_append, List.all_append, hfollows.shut, Bool.and_false]

/-- To keep the name in order. -/
def Apart.manner (ha : Apart env.toTypeScope n) : Manner env where
  World := Prop
  Holds := Tracks env n
  bind := .bind
  weaken := .weaken
  inEnv := .inEnv
  pure := .pure
  throw := .throw
  note := .note
  lined := true
  Bare x := ¬ Mentions n x
  Part x w := Covered n w x
  Text x w := Allowed n w x
  Piece x w := Covered n w x
  Code x w := Allowed n w x
  Announces m x w := Announces n w m x
  Hint _ := True
  bare := closed_covered ha.numbered
  text := sealed_allowed ha.numbered
  code := sealed_allowed ha.numbered
  text_of_bare := .of_clean
  code_of_text := id
  word := ha.numbered.not_mentions_word
  names := ha.names _
  texts := ha.texts _
  hint _ := trivial
  fieldHint _ := trivial
  always h := .of_clean (h False)
  declare htype hname _ := covered_of_clean (clean_declare htype hname)
  addition := covered_of_clean (ha.numbered.not_mentions (by decide))
  announces _ hintro hhead hfollows htail :=
    ha.opening_announces hintro (hhead False) hfollows (htail False)
  hoist := .hoist
  defer := .defer

namespace Apart

variable (ha : Apart env.toTypeScope n)

theorem grants {ref : FieldRef} {l : PacketField} (hl : env.program.packetField ref = .ok l) :
    ha.manner.Grants l :=
  have hn := ha.numbered
  have hl := ha.packetField hl
  { value := .of_clean (clean_packetValue hn hl)
    extract := fun hbuffer => (ready_extractPacket hn hl hl.fieldId hbuffer).whole
    set := fun hvalue => (ready_setField hn hl hvalue).whole
    modify := fun hbuffer hbytes => (ready_modifyField hn hl hbuffer hbytes).whole }

theorem admits : ha.manner.Admits env.program.Quiet where
  wellFormed := ha.wellFormed
  naming := ⟨fun _ hx hcode hk => .freshThen hx hcode hk,
    fun _ _ hissue hx hcode hk => .nameThen hx hcode hk hissue⟩
  part := .part
  field _ _ _ hl := ha.grants hl
  pays _ _ _ _ _ _ _ _ _ _ _ _ _ _ _ _ _ _ _ _ _ _ _ _ hl _ _ hbuffer :=
    have hl := ha.packetField hl
    (ready_extractPacket ha.numbered hl hl.fieldInstance hbuffer).whole
  buffer {_ id _ items} _ _ _ :=
    bufferText_holds (M := ha.manner) (.bufferName id) (.firstTime id) items
  struct _ _ _ := rfl
  select {id e keys arms} hid he hnode := absurd hnode (hid id e (.refl id) he keys arms)

end Apart

end PacketC
