import Mathlib.Algebra.GroupWithZero.Nat
import Mathlib.Order.Interval.Finset.Nat
import PacketC.Target.Container

/-! Stretches of a buffer. Where runs of bits are copied one after another, each start and each
length is rounded up to bytes by itself. Then the stretches fit into a buffer whose size is rounded
up likewise just if nothing is lost in rounding: their lengths have to add up to the size. -/

namespace PacketC

/-! ### Bytes that hold bits -/

/-- The bytes that hold the given number of bits. -/
def wholeBytes (bits : Nat) : Nat := (bits + 7) / 8

/-- Within 32 bits, this is how bytes are counted. -/
theorem byteCount_eq {bits : Nat} (h : bits + 7 < UInt32.size) :
    byteCount bits = wholeBytes bits := by
  rw [byteCount, Nat.mod_eq_of_lt h, wholeBytes]

theorem wholeBytes_zero : wholeBytes 0 = 0 := rfl

theorem wholeBytes_add_le (a b : Nat) : wholeBytes (a + b) ≤ wholeBytes a + wholeBytes b := by
  unfold wholeBytes
  omega

/-- Rounding up each part takes at least as many bytes as rounding up the sum. -/
theorem wholeBytes_add_sum_le (offset : Nat) (ws : List Nat) :
    wholeBytes (offset + ws.sum) ≤ wholeBytes offset + (ws.map wholeBytes).sum := by
  induction ws generalizing offset with
  | nil => exact Nat.le_refl _
  | cons w ws ih =>
    have hrest := ih (offset + w)
    have hfirst := wholeBytes_add_le offset w
    rw [List.sum_cons, List.map_cons, List.sum_cons, ← Nat.add_assoc]
    omega

/-- Some bytes of a buffer. -/
structure Stretch where
  start : Nat
  length : Nat
  deriving DecidableEq

namespace Stretch

def stop (s : Stretch) : Nat := s.start + s.length

def Holds (s : Stretch) (i : Nat) : Prop := s.start ≤ i ∧ i < s.stop

/-- All stretches lie in a buffer of the given size, and no two of them have a byte in common. -/
structure Fits (l : List Stretch) (size : Nat) : Prop where
  inside : ∀ s ∈ l, ∀ i, s.Holds i → i < size
  apart : l.Pairwise fun s t => ∀ i, s.Holds i → ¬t.Holds i

/-- The first stretch begins at `start`, each further one where the one before it ends, and the last
one ends at `stop`. -/
def Tiles : Nat → List Stretch → Nat → Prop
  | start, [], stop => start = stop
  | start, s :: l, stop => s.start = start ∧ Tiles s.stop l stop

/-- The stretches for runs of the given widths, behind `offset` bits. -/
def ofWidths : Nat → List Nat → List Stretch
  | _, [] => []
  | offset, w :: ws => ⟨wholeBytes offset, wholeBytes w⟩ :: ofWidths (offset + w) ws

theorem map_length_ofWidths (offset : Nat) (ws : List Nat) :
    (ofWidths offset ws).map length = ws.map wholeBytes := by
  induction ws generalizing offset with
  | nil => rfl
  | cons w ws ih => rw [ofWidths, List.map_cons, List.map_cons, ih]

/-! ### Stretches without gaps -/

variable {l : List Stretch}

theorem Tiles.le {start stop : Nat} (h : Tiles start l stop) :
    start ≤ stop ∧ ∀ s ∈ l, start ≤ s.start ∧ s.stop ≤ stop := by
  induction l generalizing start with
  | nil => exact ⟨Nat.le_of_eq h, nofun⟩
  | cons s l ih =>
    obtain ⟨rfl, hrest⟩ := h
    obtain ⟨hstop, hl⟩ := ih hrest
    have hs : s.start ≤ s.stop := Nat.le_add_right _ _
    refine ⟨by omega, List.forall_mem_cons.2 ⟨⟨Nat.le_refl _, hstop⟩, fun t ht => ?_⟩⟩
    have := hl t ht
    omega

theorem Tiles.fits {start stop : Nat} (h : Tiles start l stop) : Fits l stop where
  inside s hs i hi := Nat.lt_of_lt_of_le hi.2 (h.le.2 s hs).2
  apart := by
    induction l generalizing start with
    | nil => exact .nil
    | cons s l ih =>
      refine List.pairwise_cons.2 ⟨fun t ht i hi hi' => ?_, ih h.2⟩
      have hstart := (h.2.le.2 t ht).1
      exact absurd hi.2 (Nat.not_lt.2 (Nat.le_trans hstart hi'.1))

/-- If nothing is lost in rounding, the stretches follow one another without gaps. -/
theorem tiles_ofWidths {offset : Nat} {ws : List Nat}
    (h : wholeBytes (offset + ws.sum) = wholeBytes offset + (ws.map wholeBytes).sum) :
    Tiles (wholeBytes offset) (ofWidths offset ws) (wholeBytes (offset + ws.sum)) := by
  induction ws generalizing offset with
  | nil => rfl
  | cons w ws ih =>
    rw [List.sum_cons, List.map_cons, List.sum_cons, ← Nat.add_assoc] at h
    rw [List.sum_cons, ← Nat.add_assoc]
    have hfirst := wholeBytes_add_le offset w
    have hrest := wholeBytes_add_sum_le (offset + w) ws
    -- neither the first width nor the others lose anything
    have hstop : wholeBytes offset + wholeBytes w = wholeBytes (offset + w) := by omega
    refine ⟨rfl, ?_⟩
    rw [stop, hstop]
    exact ih (by omega)

/-! ### Stretches that fit -/

/-- There are as many bytes as the lengths add up to. -/
theorem exists_finset (h : l.Pairwise fun s t => ∀ i, s.Holds i → ¬t.Holds i) :
    ∃ bytes : Finset Nat, bytes.card = (l.map length).sum ∧
      ∀ i ∈ bytes, ∃ s ∈ l, s.Holds i := by
  induction l with
  | nil => exact ⟨∅, rfl, by simp⟩
  | cons s l ih =>
    obtain ⟨hs, hl⟩ := List.pairwise_cons.1 h
    obtain ⟨bytes, hcard, hbytes⟩ := ih hl
    have hdisjoint : Disjoint (Finset.Ico s.start s.stop) bytes := by
      refine Finset.disjoint_left.2 fun i hi hi' => ?_
      obtain ⟨t, ht, hit⟩ := hbytes i hi'
      exact hs t ht i (Finset.mem_Ico.1 hi) hit
    refine ⟨Finset.Ico s.start s.stop ∪ bytes, ?_, fun i hi => ?_⟩
    · rw [Finset.card_union_of_disjoint hdisjoint, Nat.card_Ico, hcard, stop,
        Nat.add_sub_cancel_left]
      rfl
    · rcases Finset.mem_union.1 hi with hi | hi
      · exact ⟨s, .head l, Finset.mem_Ico.1 hi⟩
      · obtain ⟨t, ht, hit⟩ := hbytes i hi
        exact ⟨t, .tail s ht, hit⟩

theorem Fits.sum_le {size : Nat} (h : Fits l size) : (l.map length).sum ≤ size := by
  obtain ⟨bytes, hcard, hbytes⟩ := exists_finset h.apart
  have hsubset : bytes ⊆ Finset.range size := fun i hi => by
    obtain ⟨s, hs, his⟩ := hbytes i hi
    exact Finset.mem_range.2 (h.inside s hs i his)
  have hle := Finset.card_le_card hsubset
  rwa [hcard, Finset.card_range] at hle

/-- Runs fit into a buffer that is as large as all of their bits need just if the bytes that they
need one by one are no more. -/
theorem fits_ofWidths_iff (ws : List Nat) : Fits (ofWidths 0 ws) (wholeBytes ws.sum) ↔
    (ws.map wholeBytes).sum = wholeBytes ws.sum := by
  have hle := wholeBytes_add_sum_le 0 ws
  rw [Nat.zero_add, wholeBytes_zero, Nat.zero_add] at hle
  constructor
  · intro h
    have hsum := h.sum_le
    rw [map_length_ofWidths] at hsum
    exact Nat.le_antisymm hsum hle
  · intro h
    have htiles : Tiles (wholeBytes 0) (ofWidths 0 ws) (wholeBytes (0 + ws.sum)) :=
      tiles_ofWidths (by rw [Nat.zero_add, wholeBytes_zero, Nat.zero_add, h])
    rw [Nat.zero_add] at htiles
    exact htiles.fits

end Stretch

end PacketC
