import Mathlib.Order.Bounds.Basic
import PacketC.Proofs.Output.NameSupply

/-! The search for a free name, round by round. Nothing but the names in use bounds it: each round
but the last passes over one of them, and no two rounds over the same. -/

namespace PacketC.NameSupply

/-- A search with its number of rounds. Each round counts one up, and the first name that is not
in use ends the search. -/
inductive Search (stem : String) : NameSupply → Nat → String × NameSupply → Prop
  | free {s : NameSupply} (h : s.isUsed (numbered stem (s.counter + 1)) = false) :
      Search stem s 1 (numbered stem (s.counter + 1), { s with counter := s.counter + 1 })
  | taken {s : NameSupply} {rounds : Nat} {found : String × NameSupply}
      (h : s.isUsed (numbered stem (s.counter + 1)) = true)
      (rest : Search stem { s with counter := s.counter + 1 } rounds found) :
      Search stem s (rounds + 1) found

/-- The numbers above the counter whose names are not in use. -/
def freeNumbers (s : NameSupply) (stem : String) : Set Nat :=
  { n | s.counter < n ∧ s.isUsed (numbered stem n) = false }

variable {s : NameSupply} {stem : String} {rounds : Nat} {found : String × NameSupply}

/-- A round over a name that is in use leaves the free numbers as they are. -/
theorem freeNumbers_count (h : s.isUsed (numbered stem (s.counter + 1)) = true) :
    freeNumbers { s with counter := s.counter + 1 } stem = s.freeNumbers stem := by
  ext n
  refine ⟨fun hn => ⟨Nat.lt_of_succ_lt hn.1, hn.2⟩, fun hn => ⟨?_, hn.2⟩⟩
  rcases Nat.lt_or_eq_of_le (Nat.succ_le_of_lt hn.1) with hlt | rfl
  · exact hlt
  · exact absurd (h.symm.trans hn.2) (by decide)

namespace Search

/-- A search ends with as many numbers passed as it has rounds, at the least free one. -/
theorem ends (h : Search stem s rounds found) :
    found = (numbered stem (s.counter + rounds), { s with counter := s.counter + rounds }) ∧
      IsLeast (s.freeNumbers stem) (s.counter + rounds) := by
  induction h with
  | free hfree => exact ⟨rfl, ⟨Nat.lt_succ_self _, hfree⟩, fun _ hn => hn.1⟩
  | @taken s rounds found htaken _ ih =>
    have hcount : s.counter + 1 + rounds = s.counter + (rounds + 1) := by omega
    rwa [freeNumbers_count htaken, hcount] at ih

/-- A search that passes over names in use and then meets a free one. -/
theorem of_taken (htaken : ∀ n, s.counter < n → n ≤ s.counter + rounds →
    s.isUsed (numbered stem n) = true)
    (hfree : s.isUsed (numbered stem (s.counter + (rounds + 1))) = false) :
    Search stem s (rounds + 1)
      (numbered stem (s.counter + (rounds + 1)),
        { s with counter := s.counter + (rounds + 1) }) := by
  induction rounds generalizing s with
  | zero => exact .free hfree
  | succ rounds ih =>
    have hcount : s.counter + 1 + (rounds + 1) = s.counter + (rounds + 1 + 1) := by omega
    have hrest := ih (s := { s with counter := s.counter + 1 })
      (fun n hlow hhigh => htaken n (by simp only at hlow; omega) (by simp only at hhigh; omega))
      (by rw [hcount]; exact hfree)
    rw [hcount] at hrest
    exact .taken (htaken _ (by omega) (by omega)) hrest

/-- The search for the next free name. -/
theorem nextFree (s : NameSupply) (stem : String) :
    ∃ rounds, Search stem s rounds (s.nextFree stem) ∧ rounds ≤ s.used.toFinset.card + 1 := by
  obtain ⟨hlow, -, hbetween⟩ := taken_of_seek s.used stem s.used.length (s.counter + 1)
  have hcount := taken_le_card hbetween
  obtain ⟨rounds, hrounds⟩ : ∃ rounds, s.nextNumber stem = s.counter + (rounds + 1) :=
    ⟨s.nextNumber stem - (s.counter + 1), by unfold nextNumber; omega⟩
  have hfree := s.numbered_nextNumber_notMem stem
  change s.nextNumber stem - (s.counter + 1) ≤ _ at hcount
  change ∀ k, s.counter + 1 ≤ k → k < s.nextNumber stem → _ at hbetween
  rw [hrounds] at hcount hbetween hfree
  refine ⟨rounds + 1, ?_, by omega⟩
  simp only [NameSupply.nextFree, hrounds]
  exact of_taken (fun n hlow hhigh => List.contains_iff_mem.2 (hbetween n hlow (by omega)))
    (by simpa [isUsed] using hfree)

end Search

/-- Whatever names are in use, the search for a free one comes to its end, in no more rounds than
one for each of them and one for the name it finds. It finds the least number above the counter
whose name is free. The names in use and the names with ids stay what they are. -/
theorem nextFree_least (s : NameSupply) (stem : String) :
    ∃ rounds ≤ s.used.toFinset.card + 1,
      (∀ k found, Search stem s k found ↔ k = rounds ∧ found = s.nextFree stem) ∧
      s.nextFree stem =
        (numbered stem (s.counter + rounds), ⟨s.counter + rounds, s.used, s.memo⟩) ∧
      IsLeast { n | s.counter < n ∧ numbered stem n ∉ s.used } (s.counter + rounds) := by
  obtain ⟨rounds, hsearch, hle⟩ := Search.nextFree s stem
  obtain ⟨hfound, hleast⟩ := hsearch.ends
  refine ⟨rounds, hle, fun k found => ⟨fun h => ?_, ?_⟩, hfound, ?_⟩
  · -- two searches of one supply end at the same number
    obtain ⟨rfl, hleast'⟩ := h.ends
    have hk : k = rounds := Nat.add_left_cancel (hleast'.unique hleast)
    exact ⟨hk, by rw [hk, hfound]⟩
  · rintro ⟨rfl, rfl⟩
    exact hsearch
  · simpa [freeNumbers, isUsed] using hleast

/-- Names that ids have taken are passed over. -/
example : nextFree "tmp" ⟨0, ["tmp_2", "tmp_1", "key_3"], []⟩ =
    ("tmp_3", ⟨3, ["tmp_2", "tmp_1", "key_3"], []⟩) := by decide

end PacketC.NameSupply
