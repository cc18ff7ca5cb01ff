import PacketC.Proofs.Persist.RoundTrip

/-! Every text that is accepted has a canonical form. A decoder takes many spellings of one value:
records as arrays, keys in any order and keys it does not know, tags with a null, fields left out,
integers with limbs to spare. What is written for the value that was read can be read again, and as
the same value. -/

namespace PacketC.Program

/-- What is read was decoded from the tree of the text, and is valid. -/
theorem exists_of_read {text : String} {p : Program} (h : read text = .ok p) :
    ∃ j, Json.parse? text = some j ∧ ofJson Json.maxDepth j = some p ∧ p.validate = .ok () := by
  simp only [read, bind, Except.bind] at h
  split at h
  · cases h
  rename_i q hq
  obtain ⟨j, hj, hdecode⟩ : ∃ j, Json.parse? text = some j ∧ ofJson Json.maxDepth j = some q := by
    unfold readUnchecked at hq
    split at hq
    · rename_i j hj
      unfold ofTree at hq
      split at hq
      · rename_i hdecode
        cases hq
        exact ⟨j, hj, hdecode⟩
      · cases hq
    · cases hq
  simp only [checked, bind, Except.bind] at h
  split at h
  · cases h
  · rename_i hvalid
    cases h
    exact ⟨j, hj, hdecode, hvalid⟩

/-- A text that is accepted, however it is spelt, has a canonical form: the text that its program is
written as stays within the depth that texts may have, and is read as the same program. -/
theorem read_render_of_read {text : String} {p : Program} (h : read text = .ok p) :
    (∃ j, Json.parse? p.render = some j ∧ j.depth ≤ Json.maxDepth) ∧ read p.render = .ok p := by
  obtain ⟨j, -, hdecode, hvalid⟩ := exists_of_read h
  have hdepth : p.toJson.depth ≤ Json.maxDepth := codec.depth_le hdecode
  refine ⟨⟨p.toJson, Json.parse?_pretty (codec.plain p), hdepth⟩, ?_⟩
  exact read_of_readUnchecked (readUnchecked_render hdepth) hvalid

/-- A text with every liberty: a key that is not known, keys in another order, records as arrays,
tags with a null, a field that is left out, a sign of 0, and limbs to spare. -/
def freeSpelling : Json :=
  let zero := .record [("Constant", .arr [.arr [.nat 0, .arr [.nat 7]], .nat 10])]
  let minus := .record [("Constant", .arr [.arr [.int (-1), .arr [.nat 7, .nat 0]], .nat 10])]
  let path := .record [("Path", .record [("absolute", .bool false), ("name", .text "x")])]
  let ty := .record [("Bool", .null)]
  let third := .record [("note", .real "1e999"), ("kind", path), ("id", .nat 2), ("ty", ty)]
  .arr [.arr [.arr [.nat 0, .text "InfInt", zero], .arr [.nat 1, .text "InfInt", minus], third],
    .arr [.record [("kind", .record [("Table", .null)]), ("name", .text "t")]], .arr [], .arr [],
    .arr []]

def freelySpelled : Program where
  exprs := #[⟨⟨0⟩, .infInt, .constant 0 10⟩, ⟨⟨1⟩, .infInt, .constant (-7) 10⟩,
    ⟨⟨2⟩, .bool, .path ⟨"x", none, false⟩⟩]
  decls := #[⟨"t", .table⟩]

section

-- the text is read character by character
set_option maxRecDepth 8000

theorem parse?_freeSpelling : Json.parse? freeSpelling.compact = some freeSpelling := by
  rw [Json.parse?, Json.compact, String.length_ofList, String.toList_ofList]
  rfl

end

theorem freeSpelling_canonical : read freeSpelling.compact = .ok freelySpelled ∧
    read freelySpelled.render = .ok freelySpelled := by
  have hunchecked : readUnchecked freeSpelling.compact = .ok freelySpelled := by
    rw [readUnchecked, parse?_freeSpelling]
    rfl
  have hread : read freeSpelling.compact = .ok freelySpelled :=
    read_of_readUnchecked hunchecked rfl
  exact ⟨hread, (read_render_of_read hread).2⟩

end PacketC.Program
