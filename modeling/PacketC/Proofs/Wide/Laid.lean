import PacketC.Proofs.Lower.Reachable
import PacketC.Proofs.Wide.Hoisted

/-! The code in front of a statement while an expression is lowered. At each moment it is a list of
declarations, each name is declared once, and a name that belongs to a hint with an id is declared
with what belongs to them. An action lays its declarations if it succeeds, keeps this, and its
result is right wherever its declarations stand, whatever is declared besides. -/

namespace PacketC

open Code

/-! ### Names that are handed out -/

section Names

variable {stem : String}

theorem ends_toString (n : Nat) : ends Char.isDigit (toString n) = true := by
  have hlist : (toString n).toList = Nat.toDigits 10 n := by
    rw [Nat.toString_eq_ofList_toDigits, String.toList_ofList]
  rw [ends, hlist, List.getLast?_eq_some_getLast Nat.toDigits_ne_nil, Option.any_some]
  exact Nat.isDigit_of_mem_toDigits (by decide) (by decide) (List.getLast_mem _)

/-- What the target keeps to itself does not end in a digit. -/
theorem identifier_of_digit {x : String} (hx : IsWord x) (hs : starts Char.isDigit x = false)
    (he : ends Char.isDigit x = true) : Identifier x where
  toIsWord := hx
  start := hs
  notKeyword hmem := by
    have hlast : ∀ w ∈ keywords, ends Char.isDigit w = false := by decide
    rw [hlast x hmem] at he
    cases he
  notType hmem := by
    have hlast : ∀ w ∈ typeNames, ends Char.isDigit w = false := by decide
    rw [hlast x hmem] at he
    cases he

theorem Code.IsStem.joined (h : IsStem stem) (n : Nat) :
    IsStem (NameSupply.joined stem (toString n)) := by
  have hbar : IsStem (stem ++ "_") := h.append (by decide)
  exact hbar.append (numeral_toString n).chars

theorem Code.IsStem.identifier (h : IsStem stem) (n : Nat) :
    Identifier (NameSupply.numbered stem n) := by
  have hstem := h.joined n
  exact identifier_of_digit hstem.toIsWord hstem.start (ends_append (ends_toString n))

theorem identifier_of_derived {x : String} (h : IsStem stem) {id : ExprId}
    (hx : NameSupply.Derived stem id.text x) : Identifier x := by
  have hid : id.text = toString id.index := String.empty_append
  rw [NameSupply.Derived, hid] at hx
  rcases hx with rfl | ⟨n, rfl⟩
  · exact h.identifier _
  · exact (h.joined _).identifier n

theorem isStem_value : IsStem "value" := ⟨by decide, by decide⟩

theorem starts_of_derived {id x : String} (h : NameSupply.Derived "value" id x) :
    starts (· == 'v') x = true := by
  have hjoined : starts (· == 'v') (NameSupply.joined "value" id) = true :=
    starts_append (starts_append (by decide))
  rcases h with rfl | ⟨n, rfl⟩
  · exact hjoined
  · exact starts_append (starts_append hjoined)

end Names

/-! ### Names that are declared -/

/-- The name that an item declares. -/
def Code.Item.declared : Item → Option String
  | .scalar _ x _ | .array x _ _ => some x
  | .stmt _ => none

/-- The name that a piece of code begins by declaring. -/
def Code.declaredBy (piece : String) : Option String :=
  ((items piece).bind List.head?).bind Item.declared

theorem Content.declared_eq {c : Content} {x : String} (hc : c.Plain) (hx : Label x) :
    declaredBy (c.text x) = some x := by
  unfold declaredBy
  cases c with
  | value width l => rw [items_value hc.1 hx hc.2.1 hc.2.2]; rfl
  | field size l => rw [items_field size hx hc.1 hc.2]; rfl
  | constant sized texts bytes => rw [items_constant sized hx hc]; rfl

/-- Declarations that are written alike declare the same name. -/
theorem Content.name_eq {c d : Content} {x y : String} (hc : c.Plain) (hd : d.Plain)
    (hx : Label x) (hy : Label y) (h : c.text x = d.text y) : x = y := by
  have hdeclared := declared_eq hc hx
  rw [h, declared_eq hd hy] at hdeclared
  exact (Option.some.inj hdeclared).symm

namespace Lower

/-! ### What holds in between -/

/-- What may be declared, and what a hint with an id is declared with. -/
structure Plan where
  allowed : Hoisted → Prop
  assigned : String × String → Content → Prop
  plain : ∀ h, allowed h → h.content.Plain
  identifier : ∀ h, allowed h → Identifier h.name
  unique : ∀ {key c d}, assigned key c → assigned key d → c = d

structure Laid (plan : Plan) (s : State) (hs : List Hoisted) : Prop where
  emission : s.emission = ⟨⟨hs.map Hoisted.text, []⟩, []⟩
  supply : s.memory.names.Sound
  nodup : (hs.map Hoisted.name).Nodup
  used : ∀ h ∈ hs, h.name ∈ s.memory.names.used
  tied : ∀ h ∈ hs, ∀ key, s.memory.names.memo.lookup key = some h.name →
    plan.assigned key h.content
  allowed : ∀ h ∈ hs, plan.allowed h

namespace Laid

variable {plan : Plan} {s t : State} {hs : List Hoisted}

theorem start {memory : Memory} (h : memory.names.Sound) : Laid plan ⟨memory, .empty⟩ [] :=
  ⟨rfl, h, .nil, nofun, nofun, nofun⟩

/-- Names that are handed out do not touch the declarations. -/
theorem of_extends (h : Laid plan s hs) (hemission : t.emission = s.emission)
    (hext : s.memory.names.Extends t.memory.names) (hsound : t.memory.names.Sound) :
    Laid plan t hs where
  emission := hemission.trans h.emission
  supply := hsound
  nodup := h.nodup
  used k hk := hext.used _ (h.used k hk)
  tied k hk key hkey := by
    rcases hext.added key _ hkey with hold | hnew
    · exact h.tied k hk key hold
    · exact absurd (h.used k hk) hnew
  allowed := h.allowed

/-- A declaration that is there already is not added again; any other has a new name. -/
theorem hoist (h : Laid plan s hs) {x : String} {c : Content} (hused : x ∈ s.memory.names.used)
    (hok : plan.allowed ⟨x, c⟩) (hsame : ∀ k ∈ hs, k.name = x → k.content = c)
    (htied : ∀ key, s.memory.names.memo.lookup key = some x → plan.assigned key c) :
    ∃ hs', Laid plan (s.prepend (c.text x)) hs' ∧ hs ⊆ hs' ∧ ⟨x, c⟩ ∈ hs' := by
  by_cases hmem : x ∈ hs.map Hoisted.name
  · obtain ⟨k, hk, rfl⟩ := List.mem_map.1 hmem
    obtain ⟨x, d⟩ := k
    obtain rfl : d = c := hsame _ hk rfl
    refine ⟨hs, ?_, fun _ h => h, hk⟩
    have hthere : s.emission.current.pre.contains (d.text x) = true := by
      rw [h.emission]
      exact List.contains_iff_mem.2 (List.mem_map_of_mem (f := Hoisted.text) hk)
    rw [State.prepend, Emission.prepend, if_pos hthere]
    exact h
  · have hnew : s.emission.current.pre.contains (c.text x) = false := by
      rw [h.emission, Bool.eq_false_iff]
      intro hthere
      obtain ⟨k, hk, heq⟩ := List.mem_map.1 (List.contains_iff_mem.1 hthere)
      have hname : k.name = x := Content.name_eq (plan.plain k (h.allowed k hk)) (plan.plain _ hok)
        (plan.identifier k (h.allowed k hk)).label (plan.identifier _ hok).label heq
      exact hmem (hname ▸ List.mem_map_of_mem hk)
    refine ⟨hs ++ [⟨x, c⟩], ?_, List.subset_append_left _ _, by simp⟩
    have hlast : ∀ {P : Hoisted → Prop}, (∀ k ∈ hs, P k) → P ⟨x, c⟩ →
        ∀ k ∈ hs ++ [⟨x, c⟩], P k := by
      intro P hold hnew k hk
      rcases List.mem_append.1 hk with hk | hk
      · exact hold k hk
      · exact List.mem_singleton.1 hk ▸ hnew
    constructor
    case emission =>
      rw [State.prepend, Emission.prepend, hnew, h.emission]
      simp [Hoisted.text]
    case supply => exact h.supply
    case nodup =>
      rw [List.map_append, List.nodup_append]
      exact ⟨h.nodup, List.nodup_singleton _, by
        rintro _ ha _ hb rfl
        obtain rfl := List.mem_singleton.1 hb
        exact hmem ha⟩
    case used => exact hlast h.used hused
    case tied => exact hlast h.tied htied
    case allowed => exact hlast h.allowed hok

/-- The declarations run if none of them reads a name that is declared. -/
theorem run (h : Laid plan s hs) {rt : Runtime}
    (hslot : ∀ k ∈ hs, ∃ slot, k.content.slot rt = some slot)
    (hunread : ∀ k ∈ hs, ∀ y ∈ k.content.mentions, y ∉ hs.map Hoisted.name) :
    ∃ m, runPieces rt .start (hs.map Hoisted.text) = some m ∧ m.calls = [] ∧
      Hoisted.Holds rt hs m ∧ ∀ y, y ∉ hs.map Hoisted.name → m.isFree y = true :=
  Hoisted.run_start (fun k hk => plan.plain k (h.allowed k hk))
    (fun k hk => (plan.identifier k (h.allowed k hk)).label) ⟨h.nodup, hunread⟩ hslot

theorem declared_of_mem (h : Laid plan s hs) {x : String} (hx : x ∈ hs.map Hoisted.name) :
    ∃ piece ∈ hs.map Hoisted.text, declaredBy piece = some x := by
  obtain ⟨k, hk, rfl⟩ := List.mem_map.1 hx
  exact ⟨k.text, List.mem_map_of_mem hk, Content.declared_eq (plan.plain k (h.allowed k hk))
    (plan.identifier k (h.allowed k hk)).label⟩

end Laid

/-! ### Actions -/

/-- What is known of the code in front of the statement, piece by piece. -/
structure Ledger (γ : Type) where
  text : γ → String
  Kept : State → List γ → Prop
  emission : ∀ {s hs}, Kept s hs → s.emission = ⟨⟨hs.map text, []⟩, []⟩
  note : ∀ {s hs}, Kept s hs → ∀ ds, Kept (s.note ds) hs

abbrev Plan.ledger (plan : Plan) : Ledger Hoisted where
  text := Hoisted.text
  Kept := Laid plan
  emission h := h.emission
  note h _ := h.of_extends rfl (.refl _) h.supply

variable {γ : Type}

/-- The action succeeds and adds its code to the one in front. If it is not `loud`, it records no
diagnostic; if it records no error, its result is right, whatever is added later. -/
def Lays (L : Ledger γ) (env : Env) (loud : Bool) {α : Type} (x : LowerM α)
    (Q : α → List γ → Prop) : Prop :=
  ∀ s hs, L.Kept s hs → ∃ a t hs' ds, x env s = (.ok a, t) ∧ L.Kept t hs' ∧ hs ⊆ hs' ∧
    t.memory.diagnostics = s.memory.diagnostics ++ ds ∧ (loud = false → ds = []) ∧
    (Report.hasErrors ds = false → ∀ later, hs' ⊆ later → Q a later)

namespace Lays

variable {α β : Type} {L : Ledger γ} {env : Env} {loud : Bool} {x : LowerM α} {f : α → LowerM β}
  {Q Q' : α → List γ → Prop} {R : α → β → List γ → Prop} {S : β → List γ → Prop}

theorem mono (h : Lays L env loud x Q) (hQ : ∀ a hs, Q a hs → Q' a hs) :
    Lays L env loud x Q' := by
  intro s hs hlaid
  obtain ⟨a, t, hs', ds, hrun, hlaid', hsub, hds, hquiet, hq⟩ := h s hs hlaid
  exact ⟨a, t, hs', ds, hrun, hlaid', hsub, hds, hquiet,
    fun hnone later hlater => hQ a later (hq hnone later hlater)⟩

theorem pure {a : α} (h : ∀ hs, Q a hs) : Lays L env loud (Pure.pure a) Q := fun s hs hlaid =>
  ⟨a, s, hs, [], rfl, hlaid, fun _ h => h, by simp, fun _ => rfl, fun _ later _ => h later⟩

theorem bind (hx : Lays L env loud x Q)
    (hf : ∀ a, Lays L env loud (f a) fun b hs => Q a hs → S b hs) :
    Lays L env loud (x >>= f) S := by
  intro s hs hlaid
  obtain ⟨a, t, hs₁, ds₁, hrun₁, hlaid₁, hsub₁, hds₁, hquiet₁, hq⟩ := hx s hs hlaid
  obtain ⟨b, u, hs₂, ds₂, hrun₂, hlaid₂, hsub₂, hds₂, hquiet₂, hr⟩ := hf a t hs₁ hlaid₁
  refine ⟨b, u, hs₂, ds₁ ++ ds₂, by rw [run_bind, hrun₁]; exact hrun₂, hlaid₂,
    fun _ h => hsub₂ (hsub₁ h), by rw [hds₂, hds₁, List.append_assoc], ?_, ?_⟩
  · intro hl
    rw [hquiet₁ hl, hquiet₂ hl, List.append_nil]
  · intro hnone later hlater
    rw [Report.hasErrors, List.any_append] at hnone
    obtain ⟨hnone₁, hnone₂⟩ := Bool.or_eq_false_iff.1 hnone
    exact hr hnone₂ later hlater (hq hnone₁ later fun _ h => hlater (hsub₂ h))

theorem mapM {l : List α} (h : ∀ a ∈ l, Lays L env loud (f a) (R a)) :
    Lays L env loud (l.mapM f) fun bs hs => List.Forall₂ (R · · hs) l bs := by
  induction l with
  | nil =>
    rw [List.mapM_nil]
    exact pure fun _ => .nil
  | cons a l ih =>
    rw [List.mapM_cons]
    exact bind (h a (.head l)) fun b => bind (ih fun a ha => h a (.tail _ ha)) fun bs =>
      pure fun _ hbs hb => .cons hb hbs

theorem inEnv {y : LowerM α} (h : x env = y env) (hy : Lays L env loud y Q) :
    Lays L env loud x Q := by
  intro s hs hlaid
  rw [h]
  exact hy s hs hlaid

/-- What is found out first goes into what is done next. -/
theorem known {a : α} (h : x env = (Pure.pure a : LowerM α) env)
    (hf : Lays L env loud (f a) S) : Lays L env loud (x >>= f) S :=
  inEnv (bind_of_pure h) hf

theorem gives {p : Program} {block : Option BlockId} {a : α} (h : Gives p block x a)
    (hp : env.program = p) (hb : env.block = block) :
    Lays L env loud x fun b _ => b = a := inEnv (h env hp hb) (pure fun _ => rfl)

/-- What goes with a report need not be right. -/
theorem report {category : Category} {stage message : String} {a : α} :
    Lays L env true (do Lower.report category stage message; return a) Q := fun _ hs hlaid =>
  ⟨a, _, hs, [.error category stage message], rfl,
    L.note hlaid _, fun _ h => h, rfl, nofun, nofun⟩

/-- An expression lays what its node lays. -/
theorem expr (wf : env.program.WellFormed) {i : ExprId} {e : Expr}
    (he : env.At i e) {mode : Mode} {Q : String → List γ → Prop}
    (h : Lays L env loud (nodeText Lower.expr e mode) Q) :
    Lays L env loud (Lower.expr i mode) Q :=
  inEnv (by rw [expr_eq_nodeText wf he]) h

/-- A call of a session that goes on with an action that lays its declarations. -/
theorem run_session {s : Session} {p : Program} {block : Option BlockId} {kind : FragmentKind}
    {stage : String} {x y : LowerM String} {Q : String → List γ → Prop} {memory : Memory}
    (h : Lays L (s.env p block) loud y Q)
    (hx : x (s.env p block) s.initial = y (s.env p block) ⟨memory, .empty⟩)
    (hstart : L.Kept ⟨memory, .empty⟩ []) (hdiagnostics : memory.diagnostics = s.diagnostics) :
    ∃ text state hs ds, s.run p block kind stage x =
        (.ok ⟨kind, hs.map L.text, text, []⟩, { s with memory := state.memory }) ∧
      L.Kept state hs ∧ state.memory.diagnostics = s.diagnostics ++ ds ∧
      (loud = false → ds = []) ∧ (Report.hasErrors ds = false → Q text hs) := by
  obtain ⟨text, t, hs', ds, hrun, hlaid, -, hds, hquiet, hq⟩ := h _ [] hstart
  refine ⟨text, t, hs', ds, ?_, hlaid, hdiagnostics ▸ hds, hquiet,
    fun hnone => hq hnone hs' fun _ h => h⟩
  rw [Session.run_of_ok (hx.trans hrun), L.emission hlaid]
  simp [Emission.gathered]

section Plan

variable {plan : Plan} {S : β → List Hoisted → Prop}

/-- A name for one use, which is declared at once. -/
theorem fresh {hint : String} {c : Content} {g : String → LowerM β}
    (hok : ∀ n, plan.allowed ⟨NameSupply.numbered hint n, c⟩)
    (hg : ∀ x, Lays plan.ledger env loud (g x) fun b hs => Identifier x → ⟨x, c⟩ ∈ hs → S b hs) :
    Lays plan.ledger env loud
      (freshName hint >>= fun x => hoist (c.text x) >>= fun _ => g x) S := by
  intro s hs hlaid
  let x := (s.memory.names.fresh hint).1
  let s₁ : State := s.withNames (s.memory.names.fresh hint).2
  have hx : plan.allowed ⟨x, c⟩ := hok _
  have hnew : x ∉ s.memory.names.used := s.memory.names.numbered_nextNumber_notMem hint
  have hlaid₁ : Laid plan s₁ hs := hlaid.of_extends rfl (.fresh _ _) (hlaid.supply.fresh hint)
  obtain ⟨hs₂, hlaid₂, hsub, hmem⟩ := hlaid₁.hoist (x := x) (.head _) hx
    (fun k hk hname => absurd (hlaid.used k hk) (hname ▸ hnew))
    fun key hkey => absurd (hlaid.supply.mem_used hkey) hnew
  obtain ⟨b, t, hs₃, ds, hrun, hlaid₃, hsub₃, hds, hquiet, hq⟩ := hg x _ hs₂ hlaid₂
  exact ⟨b, t, hs₃, ds, hrun, hlaid₃, fun _ h => hsub₃ (hsub h), hds, hquiet,
    fun hnone later hlater =>
      hq hnone later hlater (plan.identifier _ hx) (hlater (hsub₃ hmem))⟩

/-- The name of a hint with an id, which is declared with what belongs to them. -/
theorem named {hint : String} {id : ExprId} {c : Content} {g : String → LowerM β}
    (hok : ∀ x, NameSupply.Derived hint id.text x → plan.allowed ⟨x, c⟩)
    (hkey : plan.assigned (hint, id.text) c)
    (hg : ∀ x, Lays plan.ledger env loud (g x) fun b hs => Identifier x → ⟨x, c⟩ ∈ hs → S b hs) :
    Lays plan.ledger env loud
      (nameOf hint id >>= fun x => hoist (c.text x) >>= fun _ => g x) S := by
  intro s hs hlaid
  let x := (s.memory.names.named hint id.text).1
  let s₁ : State :=
    s.withNames (s.memory.names.named hint id.text).2
  have hlaid₁ : Laid plan s₁ hs := hlaid.of_extends rfl (.named _ _ _) (hlaid.supply.named _ _)
  have hlookup : s₁.memory.names.memo.lookup (hint, id.text) = some x :=
    s.memory.names.lookup_named hint id.text
  have hx : plan.allowed ⟨x, c⟩ := hok x (hlaid₁.supply.derived _ _ _ hlookup)
  obtain ⟨hs₂, hlaid₂, hsub, hmem⟩ := hlaid₁.hoist (hlaid₁.supply.mem_used hlookup) hx
    (fun k hk hname => plan.unique (hlaid₁.tied k hk _ (hname ▸ hlookup)) hkey)
    fun key h => hlaid₁.supply.key_eq h hlookup ▸ hkey
  obtain ⟨b, t, hs₃, ds, hrun, hlaid₃, hsub₃, hds, hquiet, hq⟩ := hg x _ hs₂ hlaid₂
  exact ⟨b, t, hs₃, ds, hrun, hlaid₃, fun _ h => hsub₃ (hsub h), hds, hquiet,
    fun hnone later hlater =>
      hq hnone later hlater (plan.identifier _ hx) (hlater (hsub₃ hmem))⟩

end Plan

end Lays

end Lower

end PacketC
