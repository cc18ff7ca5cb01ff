import PacketC.Proofs.Traces.Expressions

/-! Assignments are the same code with traces and without. A store is traced in a line below it,
which repeats the operands; where those are written on one line, so is the trace. -/

namespace PacketC

open Text

/-- Lines of code with a trace below them or not. -/
theorem SameCode.traced {a : List String} {last t : String} {b b' : Bool}
    (ha : ∀ line ∈ a, Ended line) (hlast : Ended last) (ht : TraceLine t)
    (hended : Ended t) :
    SameCode (unlines (a ++ last :: if b then [t] else []))
      (unlines (a ++ last :: if b' then [t] else [])) := by
  have hne : a ++ [last] ≠ [] := List.append_ne_nil_of_right_ne_nil _ (List.cons_ne_nil _ _)
  have hcode : Ended (unlines (a ++ [last])) :=
    .unlines hne (List.forall_mem_append.2 ⟨ha, List.forall_mem_singleton.2 hlast⟩)
  have hplain : ∀ b : Bool, SameCode (unlines (a ++ last :: if b then [t] else []))
      (unlines (a ++ [last])) := by
    intro b
    cases b with
    | false => exact .ended hcode
    | true =>
      rw [if_pos rfl, List.append_cons, unlines_append hne (List.cons_ne_nil _ _),
        unlines_singleton]
      exact .trace_below hcode hended ht.isSilent
  exact (hplain b).trans (hplain b').symm

namespace Lower

variable {env : Env} {on : Bool} {P : Prop} {l : PacketField}

/-! ### Stores -/

theorem traceLine_shortField (hl : l.Unbroken) : TraceLine (shortFieldTrace l) :=
  .append (.arg (.arg ⟨rfl, rfl⟩ hl.header rfl) hl.field rfl)
    (.arg (.arg rfl (.toString _) rfl) (unbroken_packetValue hl) rfl)

theorem traceLine_wideField (hl : l.Unbroken) {s : ByteSource} (hbuffer : Unbroken s.buffer)
    (hbytes : Unbroken s.bytes) : TraceLine (wideFieldTrace l s) :=
  .append (.arg (.arg (.arg ⟨rfl, rfl⟩ hbuffer rfl) hbytes rfl) hl.header rfl)
    (.arg rfl hl.field rfl)

theorem traceLine_copiedHeader {dst src : String} (hd : Unbroken dst)
    (hs : Unbroken src) : TraceLine (copiedHeaderTrace dst src) :=
  .append (.arg (.arg ⟨rfl, rfl⟩ hd rfl) hs rfl)
    (.arg (.arg (.arg rfl hs rfl) hd rfl) hs rfl)

theorem ended_lengthLines (l : PacketField) : ∀ line ∈ lengthLines l, Ended line := by
  intro line hline
  unfold lengthLines at hline
  split at hline
  · simp only [List.mem_cons, List.not_mem_nil, or_false] at hline
    rcases hline with rfl | rfl
    · exact .append _ rfl
    · exact .append _ (.append _ rfl)
  · cases hline

theorem ended_of_shortFieldValue {src : Expr} {q : List String × String}
    (h : Returns env (shortFieldValue expr l src) q) : ∀ line ∈ q.1, Ended line := by
  unfold shortFieldValue at h
  split at h
  · obtain ⟨name, _, h⟩ := h.of_bind
    obtain ⟨storage, _, h⟩ := h.of_bind
    rw [← h.of_pure]
    simp only [List.forall_mem_cons]
    exact ⟨.append _ rfl, .append _ rfl, List.forall_mem_nil _⟩
  · obtain ⟨value, _, h⟩ := h.of_bind
    rw [← h.of_pure]
    exact List.forall_mem_nil _

section Stores

variable (wf : env.program.WellFormed) (hone : env.toTypeScope.Unbroken)
variable {left right : ExprId} {dst src : Expr}

include wf

theorem storeScalar_alike (hl : l.Unbroken) (hsrc : env.At right src)
    (hr : Indifferent env on right) : Alike P SameCode env on (storeScalar expr l src) := by
  refine .bind_same (.step (shortFieldValue_inStep (Licence.indifferent_suits wf on) l
    (wf.id_eq hsrc ▸ hr))) fun q hq => ?_
  refine .asked fun b b' => .pure ?_
  exact .traced (ended_of_shortFieldValue hq) (.append _ rfl) (traceLine_shortField hl)
    (.append _ (.append _ rfl))

include hone

theorem storeBytes_alike (hl : l.Unbroken) (hsrc : env.At right src)
    (hr : Indifferent env on right) (hplain : env.program.Plain right) :
    Alike P SameCode env on (storeBytes expr l src) := by
  have hadmits := hone.admits wf
  obtain rfl := wf.id_eq hsrc
  refine .bind_spells (.step (byteSource_inStep (Licence.indifferent_suits wf on) l hsrc hr))
    (hone.spells (byteSource_holds hadmits hone.supplied (expr_holds hadmits) l hsrc hplain))
    fun s _ hs => ?_
  refine .asked fun b b' => .pure ?_
  exact .traced (ended_lengthLines l) (.append _ rfl)
    (traceLine_wideField hl hs.buffer hs.bytes) (.append _ (.append _ rfl))

theorem headerSlot_alike {e : Expr} {id : ExprId} (he : env.At id e)
    (hr : Indifferent env on id) (hplain : env.program.Plain id) (mode : Mode) :
    Alike P (fun a b => a = b ∧ Unbroken a) env on (headerSlot expr e mode) := by
  have hid := wf.id_eq he
  refine Twins.spells (.step ?_)
    (hone.spells (headerSlot_holds (expr_holds (hone.admits wf)) (hid ▸ hplain) mode))
  exact headerSlot_inStep (Licence.indifferent_suits wf on)
    (fun _ i hi => wf.exists_header he hi) (hid ▸ hr) mode

section Operands

variable (hdst : env.At left dst) (hsrc : env.At right src)
  (hl : Indifferent env on left) (hr : Indifferent env on right) (hleft : env.program.Plain left)
  (hright : env.program.Plain right)

include hdst hsrc hl hr hleft hright

theorem copyHeader_alike : Alike P SameCode env on (copyHeader expr dst src) := by
  refine .bind (headerSlot_alike wf hone hdst hl hleft _) ?_
  rintro d _ ⟨rfl, hd⟩ _
  refine .bind (headerSlot_alike wf hone hsrc hr hright _) ?_
  rintro s _ ⟨rfl, hs⟩ _
  refine .asked fun b b' => .pure ?_
  exact .traced (a := []) nofun (.append _ (.append _ rfl)) (traceLine_copiedHeader hd hs)
    (.append _ (.append _ rfl))

theorem storeVariable_alike : Alike P SameCode env on (storeVariable expr dst src) := by
  have hty := (Licence.indifferent_suits wf on).sameText fun wf => wf.ty hdst
  unfold storeVariable
  rw [wf.id_eq hdst, wf.id_eq hsrc]
  refine .bind_spells (hl P _) (oneLine_of_plain wf hone hleft _) fun d _ hd => ?_
  refine .bind_spells (hr P _) (oneLine_of_plain wf hone hright _) fun s _ hs => ?_
  split
  · refine .bind_same (.step (.typeText hty)) fun type _ => ?_
    split
    · refine .asked fun b b' => .pure ?_
      exact .traced (a := []) nofun (.append _ rfl)
        (.arg (.arg ⟨rfl, rfl⟩ hd rfl) hd rfl) (.append _ rfl)
    · refine .bind_same (.step (.freshName .var)) fun name _ => ?_
      exact .pure (.ended (.append _ rfl))
  · refine .asked fun b b' => .pure ?_
    have hbytes := Unbroken.toString (byteCount (dst.ty.width.getD 0))
    exact .traced (a := []) nofun (.append _ rfl)
      (.arg (.arg (.arg (.arg (.arg ⟨rfl, rfl⟩ hs rfl) hbytes rfl) hs rfl) hd rfl) hbytes rfl)
      (.append _ rfl)

end Operands

theorem assign_alike (hl : Indifferent env on left) (hr : Indifferent env on right)
    (hleft : env.program.Plain left) (hright : env.program.Plain right) :
    Alike P SameCode env on (assign expr left right) := by
  refine .look fun dst hdst => .look fun src hsrc => ?_
  split
  · refine .look fun l hfield => ?_
    have hfield := hone.packetField hfield
    split
    · exact storeScalar_alike wf hfield hsrc hr
    · exact storeBytes_alike wf hone hfield hsrc hr hright
  · refine .ask _ ?_
    split
    · exact copyHeader_alike wf hone hdst hsrc hl hr hleft hright
    · split
      · exact storeVariable_alike wf hone hdst hsrc hl hr hleft hright
      · refine .bind_same (hl P _) fun d _ => .bind_same (hr P _) fun s _ => ?_
        exact .pure (.ended (.append _ rfl))

end Stores

end Lower

end PacketC
