import PacketC.Lower.Call
import PacketC.Proofs.Program.WellFormed

/-! What calls refer to: the declaration and the signature behind the method of an external object
or behind a function, and the types that a call puts together from them. -/

namespace PacketC.Lower

variable {p : Program} {ty : Ty} {t : ExternalTarget}

/-- What is found for the type of a receiver is in the program. -/
theorem found_of_externalOf {q : TypeDecl × List Ty} (h : externalOf p ty = .ok q) :
    q.1 ∈ p.typeDecls ∧ (p.InRange ty → ∀ arg ∈ q.2, p.InRange arg) := by
  unfold externalOf at h
  cases ty with
  | external id | name id =>
    simp only [pure_bind] at h
    split at h
    · cases h
    · rename_i t ht
      split at h <;> cases h
      exact ⟨Program.mem_of_lookup ht, fun _ => nofun⟩
  | specialized base args =>
    simp only [pure_bind] at h
    split at h
    · cases h
    · rename_i t ht
      split at h <;> cases h
      exact ⟨Program.mem_of_lookup ht, fun hty =>
        (Program.inRange_specialized_iff.1 hty).2⟩
  | _ => cases h

/-- What a call is resolved to is in the program. -/
structure ExternalTarget.Found (p : Program) (receiver : Expr) (method : String)
    (t : ExternalTarget) : Prop where
  decl : t.decl ∈ p.typeDecls
  signature : t.signature ∈ t.decl.methods
  name : t.signature.name = method
  path : receiver.node = .path t.path
  receiverArgs : p.InRange receiver.ty → ∀ arg ∈ t.receiverArgs, p.InRange arg

theorem found_of_externalTarget {receiver : Expr} {method : String}
    (h : ExternalTarget.of p receiver method = .ok t) : t.Found p receiver method := by
  obtain ⟨q, hq, h⟩ := Program.bind_eq_ok_iff.1 h
  have hfound := found_of_externalOf hq
  dsimp only at h
  split at h
  · cases h
  · rename_i signature hsignature
    split at h
    · rename_i path hnode
      cases h
      have hname := List.find?_some hsignature
      exact ⟨hfound.1, List.mem_of_find?_eq_some hsignature, beq_iff_eq.1 hname, hnode, hfound.2⟩
    · cases h

/-- The types of the signature stand in the declaration of the external type. -/
theorem ExternalTarget.Found.holdsTy {receiver : Expr} {method : String}
    (h : t.Found p receiver method) (hty : t.signature.HoldsTy ty) : p.HoldsTy ty := by
  have hs := h.signature
  unfold TypeDecl.methods at hs
  split at hs
  · rename_i params methods hbody
    exact .typeDecl h.decl (hbody ▸ .method hs hty)
  · cases hs

theorem inRange_instantiate {bindings : List (String × Ty)} (hb : ∀ q ∈ bindings, p.InRange q.2)
    (hty : p.InRange ty) : p.InRange (instantiate bindings ty) := by
  cases ty with
  | var x =>
    rw [instantiate]
    cases hx : bindings.lookup x with
    | none => exact hty
    | some bound =>
      obtain ⟨before, after, hsplit, -⟩ := List.lookup_eq_some_iff.1 hx
      exact hb (x, bound) (by rw [hsplit]; exact List.mem_append_right _ (.head after))
  | _ => exact hty

theorem inRange_bindings {typeArgs : List Ty} (hreceiver : ∀ ty ∈ t.receiverArgs, p.InRange ty)
    (hargs : ∀ ty ∈ typeArgs, p.InRange ty) : ∀ q ∈ t.bindings typeArgs, p.InRange q.2 := by
  intro q hq
  rcases List.mem_append.1 (List.mem_reverse.1 hq) with hq | hq
  · exact hreceiver _ (List.of_mem_zip hq).2
  · exact hargs _ (List.of_mem_zip hq).2

/-- The types of a function's signature stand in its declaration. -/
theorem holdsTy_of_functionSignature {path : Path} {s : Signature}
    (h : functionSignature? p path = .ok (some s)) (hty : s.HoldsTy ty) : p.HoldsTy ty := by
  unfold functionSignature? at h
  split at h
  · cases h
  · rename_i d _
    cases hd : p.decl d with
    | error e => rw [hd] at h; cases h
    | ok b =>
      rw [hd] at h
      have hmem : b ∈ p.decls := Program.mem_of_lookup hd
      have hbody : b.signature? = some s := Except.ok.inj h
      unfold Decl.signature? at hbody
      split at hbody
      · rename_i signature hfunction
        cases hbody
        exact .decl hmem (hfunction ▸ .function hty)
      · cases hbody

end PacketC.Lower
