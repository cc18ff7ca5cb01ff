import PacketC.Proofs.Extend.Program

/-! Two environments that agree on everything but the nodes at the ends of the arenas, and on
whether traces are asked for unless that is read as well. Types that are in range have the same
text in both. -/

namespace PacketC

/-- The settings with traces or without. -/
def Config.tracing (on : Bool) (c : Config) : Config := { c with emitDebugTraces := on }

theorem Program.WellFormed.ty {p : Program} (wf : p.WellFormed) {id : ExprId} {e : Expr}
    (he : p.At id e) : p.InRange e.ty := wf.types _ (.expr (Program.mem_of_expr he))

namespace Lower

/-- The second environment has at most more nodes, at the ends of its arenas, and may differ in
whether traces are asked for. -/
structure Env.Resembles (env env' : Env) : Prop extends env.program.WellFormed where
  program : env.program.ExtendsTo env'.program
  config : ∃ on, env'.config = env.config.tracing on
  aliases : env'.aliases = env.aliases
  isLocal : ∀ id, (env'.block.any fun block => env'.program.isLocalOf block id) =
    env.block.any fun block => env.program.isLocalOf block id
  block : (env'.block.bind fun id => env'.program.blocks[id.index]?) =
    env.block.bind fun id => env.program.blocks[id.index]?

/-- Traces are asked for in both environments or in neither. -/
def Env.TracesLike (env env' : Env) : Prop :=
  env'.config.emitDebugTraces = env.config.emitDebugTraces

/-- The type has the same text in both environments. -/
def SameText (env env' : Env) (ty : Ty) : Prop :=
  ∀ form, ty.render env'.toTypeScope form = ty.render env.toTypeScope form

namespace Env.Resembles

variable {env env' : Env}

theorem refl (wf : env.program.WellFormed) : env.Resembles env :=
  ⟨wf, .refl _, ⟨_, rfl⟩, rfl, fun _ => rfl, rfl⟩

variable (h : env.Resembles env')

include h

theorem isArgTyped (external : String) :
    env'.config.isArgTyped external = env.config.isArgTyped external := by
  obtain ⟨on, hon⟩ := h.config
  rw [hon]
  rfl

theorem enumText (shown : Ty) {id : TypeId} (hid : id.index < env.program.typeDecls.size) :
    shown.enumText env'.toTypeScope id = shown.enumText env.toTypeScope id := by
  unfold Ty.enumText
  rw [h.program.typeDecl_eq hid]

theorem nameText (form : TypeForm) (shown : Ty) {id : TypeId}
    (hid : id.index < env.program.typeDecls.size) :
    shown.nameText env'.toTypeScope form id = shown.nameText env.toTypeScope form id := by
  unfold Ty.nameText
  rw [h.program.typeDecl_eq hid, h.aliases]

/-- The first argument alone is shown, so the induction goes into that one. -/
theorem sameText : ∀ ty : Ty, env.program.InRange ty → SameText env env' ty
  | .void, _, _ | .bool, _, _ | .infInt, _, _ | .string, _, _ | .bits .., _, _ | .varbits _, _, _
  | .header _, _, _ | .var _, _, _ | .tuple _, _, _ => by rw [Ty.render, Ty.render]
  | .enum id, hty, _ => by rw [Ty.render, Ty.render, h.enumText _ (hty id (.enum id))]
  | .error id, hty, _ => by rw [Ty.render, Ty.render, h.enumText _ (hty id (.error id))]
  | .name id, hty, _ => by rw [Ty.render, Ty.render, h.nameText _ _ (hty id (.name id))]
  | .external id, hty, _ => by
    rw [Ty.render, Ty.render, h.program.typeDecl_eq (hty id (.external id))]
  | .struct id, hty, _ => by
    rw [Ty.render, Ty.render, h.program.typeDecl_eq (hty id (.struct id))]
  | .specialized base [], hty, _ => by
    rw [Ty.render.eq_def, Ty.render.eq_def]
    simp only [h.program.typeDecl_eq (hty base (.base base [])), h.isArgTyped]
  | .specialized base (arg :: rest), hty, form => by
    have harg : env.program.InRange arg :=
      (Program.inRange_specialized_iff.1 hty).2 arg (.head rest)
    have hrender := sameText arg harg form
    rw [Ty.render.eq_def, Ty.render.eq_def]
    simp only [h.program.typeDecl_eq (hty base (.base base _)), h.isArgTyped,
      h.program.typeName?_eq harg, hrender]
    cases rest <;> simp only [hrender]

end Env.Resembles

end Lower

end PacketC
