import PacketC.Proofs.Lists.Copies
import PacketC.Proofs.Lists.Buffers
import PacketC.Proofs.Lower.Reachable

/-! The call that comes to a list first assembles its buffer: somewhere in the code of its fragment,
if it succeeds. A call that fails has no fragment, but the session goes on as if the buffer were
assembled. -/

namespace PacketC

open Code

namespace Lower

variable {env : Env} {W : Watch} {recur : Recur} {s t : State}

theorem mem_enframed {code : String} {pre post : List String} {body : Script}
    (h : code ∈ pre ∨ Mark.code code ∈ body) : Mark.code code ∈ enframed pre body post := by
  refine List.mem_append_left _ (List.mem_append.2 (h.imp_left fun h => ?_))
  exact List.mem_map_of_mem h

theorem Spares.passes {α : Type} {x : LowerM α} {P : α → Prop} {a : α}
    (hx : Spares env W False True x P) (h : x env s = (.ok a, t)) : W.Passes s t False :=
  (hx.later h).toPasses

theorem single_passes {x : LowerM String} (hx : Spares env W False True x W.Clean) {o : Outlined}
    (h : single x env s = (.ok o, t)) : W.Passes s t (Mark.code W.code ∈ o.2) := by
  obtain ⟨text, u, hu, h⟩ := exists_of_bind h
  cases h
  exact (hx.passes hu).mono False.elim

/-- What is assembled in a frame stands in the code of the frame. -/
theorem enclosedScript_passes {x : LowerM Outlined}
    (hx : ∀ {s o t}, x env s = (.ok o, t) → W.Passes s t (Mark.code W.code ∈ o.2)) {o : Outlined}
    (h : enclosedScript x env s = (.ok o, t)) : W.Passes s t (Mark.code W.code ∈ o.2) := by
  obtain ⟨q, u, hu, rfl, ho⟩ := exists_of_enclosedScript (fun hs => (hx hs).emission.outer) h
  have hpasses := hx hu
  refine ⟨hpasses.memory, .refl _, hpasses.named, fun hext hs ht => .inr ?_⟩
  rw [ho]
  exact .tail _ (List.mem_append_left _ (mem_enframed (hpasses.emits hext hs ht)))

theorem mem_blockScript {m : Mark} (c : Config) (lock : Option String) {parts : List Outlined}
    (h : ∃ o ∈ parts, m ∈ o.2) : m ∈ blockScript c lock (parts.map Prod.snd) := by
  have hmem : m ∈ (parts.map Prod.snd).flatten := by
    obtain ⟨o, ho, hm⟩ := h
    exact List.mem_flatten.2 ⟨o.2, List.mem_map_of_mem ho, hm⟩
  cases lock with
  | none => exact hmem
  | some lock => exact .tail _ (List.mem_append_left _ hmem)

theorem mem_condScript {m : Mark} (c : String) {ifTrue ifFalse : Script}
    (h : m ∈ ifTrue ∨ m ∈ ifFalse) : m ∈ condScript c ifTrue ifFalse := by
  simp only [condScript, List.mem_append, List.mem_cons]
  tauto

theorem mem_switchScript {m : Mark} (selector : String) {arms : List ArmScript}
    (h : ∃ a ∈ arms, m ∈ a.body) : m ∈ switchScript selector arms := by
  obtain ⟨a, ha, hm⟩ := h
  refine .tail _ (List.mem_append_left _ (List.mem_append_left _ (List.mem_flatMap.2 ⟨a, ha, ?_⟩)))
  exact List.mem_append_left _ (List.mem_append_right _ hm)

mutual

/-- Where a statement comes to the list first, its buffer is assembled around it or in it. -/
theorem outlined_passes (hW : W.Fits env.toTypeScope) (hr : SparesEach env W False recur) :
    ∀ (stmt : Statement) {s t : State} {o : Outlined}, outlined recur stmt env s = (.ok o, t) →
      W.Passes s t (Mark.code W.code ∈ o.2)
  | .assign left right, _, _, _, h => by
    rw [outlined] at h
    exact single_passes (assign_spares hW hr nofun nofun) h
  | .call e, _, _, _, h => by
    rw [outlined] at h
    exact single_passes (runCall_spares hW hr nofun) h
  | .decl id, _, _, _, h => by
    rw [outlined] at h
    exact single_passes (declaration_spares hW hr (fun _ h => by cases h) fun _ _ _ _ => nofun) h
  | .empty, _, _, _, h => by
    rw [outlined] at h
    exact single_passes (.pure fun _ => hW.numbered.not_mentions (by decide)) h
  | .block components annotations, s, t, o, h => by
    have hblock : ∀ lock {s}, (do
        let parts ← outlinedParts recur components
        let c ← config
        return (blockText c lock (parts.map Prod.fst), blockScript c lock (parts.map Prod.snd)) :
          LowerM Outlined) env s = (.ok o, t) → W.Passes s t (Mark.code W.code ∈ o.2) := by
      intro lock s h
      obtain ⟨parts, u, hu, h⟩ := exists_of_bind h
      cases h
      exact (outlinedParts_passes hW hr components hu).mono (mem_blockScript _ lock)
    rw [outlined] at h
    split at h
    · obtain ⟨lock, u, hu, h⟩ := exists_of_bind h
      have hlock := (controlLock_spares hW).passes hu
      exact (hlock.trans (hblock lock h)).mono (Or.elim · False.elim id)
    · exact hblock none h
  | .cond condition ifTrue ifFalse, s, t, o, h => by
    rw [outlined] at h
    obtain ⟨ifTrue', u, hu, h⟩ := exists_of_bind h
    obtain ⟨ifFalse', v, hv, h⟩ := exists_of_bind h
    obtain ⟨c, w, hw, h⟩ := exists_of_bind h
    cases h
    have hbranches := (outlinedBody_passes hW hr ifTrue hu).trans
      (outlinedBody_passes hW hr ifFalse hv)
    have hcondition := (hr nofun .value).passes hw
    exact (hbranches.trans hcondition).mono fun h =>
      mem_condScript _ (h.resolve_right False.elim)
  | .switch selector cases, s, t, o, h => by
    rw [outlined] at h
    obtain ⟨text, u, hu, h⟩ := exists_of_bind h
    obtain ⟨arms, v, hv, h⟩ := exists_of_bind h
    cases h
    have hselector := (hr nofun .value).passes hu
    exact (hselector.trans (outlinedArms_passes hW hr cases hv)).mono fun h =>
      mem_switchScript _ (h.resolve_left False.elim)

theorem outlinedParts_passes (hW : W.Fits env.toTypeScope) (hr : SparesEach env W False recur) :
    ∀ (l : List Statement) {s t : State} {parts : List Outlined},
      outlinedParts recur l env s = (.ok parts, t) →
        W.Passes s t (∃ o ∈ parts, Mark.code W.code ∈ o.2)
  | [], _, _, _, h => by
    rw [outlinedParts] at h
    cases h
    exact .refl ..
  | stmt :: rest, _, _, _, h => by
    rw [outlinedParts] at h
    obtain ⟨part, u, hu, h⟩ := exists_of_bind h
    obtain ⟨parts, v, hv, h⟩ := exists_of_bind h
    cases h
    have hpart := enclosedScript_passes (fun hs => outlined_passes hW hr stmt hs) hu
    exact (hpart.trans (outlinedParts_passes hW hr rest hv)).mono fun h =>
      (List.exists_mem_cons_iff ..).2 h

theorem outlinedBody_passes (hW : W.Fits env.toTypeScope) (hr : SparesEach env W False recur) :
    ∀ (body : Option Statement) {s t : State} {o : Outlined},
      outlinedBody recur body env s = (.ok o, t) → W.Passes s t (Mark.code W.code ∈ o.2)
  | none, _, _, _, h => by
    rw [outlinedBody] at h
    exact single_passes (.pure fun _ => hW.numbered.not_mentions (by decide)) h
  | some stmt, _, _, _, h => by
    rw [outlinedBody] at h
    exact enclosedScript_passes (fun hs => outlined_passes hW hr stmt hs) h

theorem outlinedArms_passes (hW : W.Fits env.toTypeScope) (hr : SparesEach env W False recur) :
    ∀ (l : List (SwitchArm Statement)) {s t : State} {arms : List ArmScript},
      outlinedArms recur l env s = (.ok arms, t) →
        W.Passes s t (∃ a ∈ arms, Mark.code W.code ∈ a.body)
  | [], _, _, _, h => by
    rw [outlinedArms] at h
    cases h
    exact .refl ..
  | ⟨label, body⟩ :: rest, _, _, _, h => by
    rw [outlinedArms] at h
    obtain ⟨text, u, hu, h⟩ := exists_of_bind h
    obtain ⟨o, v, hv, h⟩ := exists_of_bind h
    obtain ⟨arms, w, hw, h⟩ := exists_of_bind h
    cases h
    have hlabel := (caseLabel_spares hW hr nofun).passes hu
    have hbody := outlinedBody_passes hW hr body hv
    have hrest := outlinedArms_passes hW hr rest hw
    exact (hlabel.trans (hbody.trans hrest)).mono fun h =>
      (List.exists_mem_cons_iff ..).2 (h.resolve_left False.elim)

end

end Lower

end PacketC
