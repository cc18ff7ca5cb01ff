import Mathlib.Data.Finset.Card
import Mathlib.Order.Interval.Finset.Nat
import PacketC.Output.NameSupply

/-! A supply of names over a whole run. The state of the supply tells the run apart only by its
record: the names handed out, and what each hint with an id was given. One more request adds one
entry to the record, and a name that was not there before unless the request repeats an earlier one
with an id. -/

namespace PacketC.NameSupply

/-! ### The search for a free name -/

variable {stem : String}

theorem numbered_injective {m n : Nat} (h : numbered stem m = numbered stem n) : m = n := by
  have hdigits : (toString m).toList = (toString n).toList := by
    have hlist := congrArg String.toList h
    simp only [numbered, joined, String.toList_append] at hlist
    exact List.append_cancel_left hlist
  have hvalue := congrArg (fun ds => Nat.ofDigitChars 10 ds 0) hdigits
  simpa [Nat.toString_eq_ofList_toDigits] using hvalue

/-- The search passes over names that are taken. -/
theorem taken_of_seek (used : List String) (stem : String) (fuel n : Nat) :
    n ≤ seek used stem fuel n ∧ seek used stem fuel n ≤ n + fuel ∧
      ∀ k, n ≤ k → k < seek used stem fuel n → numbered stem k ∈ used := by
  induction fuel generalizing n with
  | zero =>
    refine ⟨Nat.le_refl _, Nat.le_refl _, fun k hk hlt => ?_⟩
    simp only [seek] at hlt
    omega
  | succ fuel ih =>
    simp only [seek]
    split
    · rename_i htaken
      obtain ⟨hlow, hhigh, hbetween⟩ := ih (n + 1)
      refine ⟨by omega, by omega, fun k hk hlt => ?_⟩
      rcases Nat.eq_or_lt_of_le hk with rfl | hk
      · exact List.contains_iff_mem.1 htaken
      · exact hbetween k hk hlt
    · exact ⟨Nat.le_refl _, Nat.le_add_right _ _, fun k hk hlt => absurd hlt (by omega)⟩

/-- If the search ends before its fuel does, it ends at a free name. -/
theorem free_of_seek_lt {used : List String} {fuel n : Nat} (h : seek used stem fuel n < n + fuel) :
    numbered stem (seek used stem fuel n) ∉ used := by
  induction fuel generalizing n with
  | zero => simp only [seek] at h; omega
  | succ fuel ih =>
    simp only [seek] at h ⊢
    split
    · rename_i htaken
      rw [if_pos htaken] at h
      exact ih (by omega)
    · rename_i hfree
      exact fun hmem => hfree (List.contains_iff_mem.2 hmem)

/-- Names with different numbers are different, so no more of them are taken than there are names
in use. -/
theorem taken_le_card {used : List String} {n m : Nat}
    (h : ∀ k, n ≤ k → k < m → numbered stem k ∈ used) : m - n ≤ used.toFinset.card := by
  have hsubset : (Finset.Ico n m).image (numbered stem) ⊆ used.toFinset := by
    intro x hx
    obtain ⟨k, hk, rfl⟩ := Finset.mem_image.1 hx
    rw [Finset.mem_Ico] at hk
    exact List.mem_toFinset.2 (h k hk.1 hk.2)
  calc
    m - n = (Finset.Ico n m).card := (Nat.card_Ico n m).symm
    _ = ((Finset.Ico n m).image (numbered stem)).card :=
      (Finset.card_image_of_injective _ fun _ _ => numbered_injective).symm
    _ ≤ used.toFinset.card := Finset.card_le_card hsubset

/-- Of one more names than are used, one is free. -/
theorem numbered_nextNumber_notMem (s : NameSupply) (stem : String) :
    numbered stem (s.nextNumber stem) ∉ s.used := by
  intro htaken
  obtain ⟨-, hhigh, hbetween⟩ := taken_of_seek s.used stem s.used.length (s.counter + 1)
  have hend : s.nextNumber stem = s.counter + 1 + s.used.length := by
    rcases Nat.lt_or_eq_of_le hhigh with hlt | heq
    · exact absurd htaken (free_of_seek_lt hlt)
    · exact heq
  have hcount := taken_le_card (m := s.nextNumber stem + 1) fun k hlow hlt => by
    rcases Nat.lt_or_eq_of_le (Nat.le_of_lt_succ hlt) with hlt | rfl
    · exact hbetween k hlow hlt
    · exact htaken
  have hle := s.used.toFinset_card_le
  omega

/-! ### Requests -/

/-- What a name is asked for. -/
structure Request where
  hint : String
  id : Option String
  deriving DecidableEq

/-- Hands out a name for each request in turn. -/
def serve (s : NameSupply) : List Request → List String × NameSupply
  | [] => ([], s)
  | r :: rest =>
    let (name, s) := s.allocate r.hint r.id
    let (names, s) := s.serve rest
    (name :: names, s)

/-- Two requests that are to be given one name. -/
def Request.Agrees (a b : Request) : Prop := a.id.isSome ∧ a = b

theorem Request.Agrees.symm {a b : Request} (h : a.Agrees b) : b.Agrees a := ⟨h.2 ▸ h.1, h.2.symm⟩

/-- The requests served so far with the names they were given, the last one first. -/
structure Records (s : NameSupply) (done : List (Request × String)) : Prop where
  used : ∀ x, x ∈ s.used ↔ x ∈ done.map Prod.snd
  nodup : s.used.Nodup
  memo : ∀ hint id x, s.memo.lookup (hint, id) = some x ↔ (⟨hint, some id⟩, x) ∈ done
  /-- A name belongs to one request, … -/
  owner : ∀ a ∈ done, ∀ b ∈ done, a.2 = b.2 → a.1 = b.1
  /-- … and is handed out again only if that has an id. -/
  again : done.Pairwise fun a b => a.2 = b.2 → a.1.id.isSome

namespace Records

theorem empty : Records empty [] where
  used := by simp [NameSupply.empty]
  nodup := List.nodup_nil
  memo := by simp [NameSupply.empty]
  owner := nofun
  again := .nil

variable {s : NameSupply} {done : List (Request × String)}

variable (h : Records s done)

include h

theorem mem_used {q : Request × String} (hq : q ∈ done) : q.2 ∈ s.used :=
  (h.used _).2 (List.mem_map_of_mem hq)

variable {x : String}

/-- A name that is not in use yet can be handed out for a new request. -/
theorem add (hx : x ∉ s.used) (r : Request) {memo : List ((String × String) × String)}
    {counter : Nat}
    (hmemo : ∀ hint id y, memo.lookup (hint, id) = some y ↔ (⟨hint, some id⟩, y) ∈ (r, x) :: done) :
    Records ⟨counter, x :: s.used, memo⟩ ((r, x) :: done) where
  used y := by simp [h.used y]
  nodup := h.nodup.cons hx
  memo := hmemo
  owner := by
    intro a ha b hb heq
    rcases List.mem_cons.1 ha with rfl | ha <;> rcases List.mem_cons.1 hb with rfl | hb
    · rfl
    · exact absurd (h.mem_used hb) (heq ▸ hx)
    · exact absurd (h.mem_used ha) (heq ▸ hx)
    · exact h.owner a ha b hb heq
  again := h.again.cons fun q hq heq => absurd (h.mem_used hq) (heq ▸ hx)

theorem fresh (hint : String) :
    Records (s.fresh hint).2 ((⟨hint, none⟩, (s.fresh hint).1) :: done) :=
  h.add (s.numbered_nextNumber_notMem hint) _ fun hint' id y => by simp [h.memo hint' id y]

/-- A request with an id is given the name that it was given before. -/
theorem of_lookup {hint id : String} (hx : s.memo.lookup (hint, id) = some x) :
    Records s ((⟨hint, some id⟩, x) :: done) := by
  have hmem := (h.memo hint id x).1 hx
  have hentry : ∀ q, q ∈ (⟨hint, some id⟩, x) :: done ↔ q ∈ done := by
    intro q
    rw [List.mem_cons]
    exact ⟨fun hq => hq.elim (fun heq => heq ▸ hmem) fun hq => hq, .inr⟩
  constructor
  case used => intro y; simp only [h.used, List.mem_map, hentry]
  case nodup => exact h.nodup
  case memo => intro hint' id' y; rw [h.memo, hentry]
  case owner =>
    intro a ha b hb
    exact h.owner a ((hentry a).1 ha) b ((hentry b).1 hb)
  case again => exact h.again.cons fun q _ _ => rfl

/-- A request with an id that has not been made before is given a name of its own. -/
theorem introduce {hint id : String} (hx : x ∉ s.used) {counter : Nat}
    (hnone : s.memo.lookup (hint, id) = none) :
    Records ⟨counter, x :: s.used, ((hint, id), x) :: s.memo⟩ ((⟨hint, some id⟩, x) :: done) := by
  refine h.add hx _ fun hint' id' y => ?_
  rw [List.lookup_cons, List.mem_cons, ← h.memo]
  by_cases hkey : (hint', id') = (hint, id)
  · cases hkey
    simp [hnone, eq_comm]
  · have hne : ¬ (hint' = hint ∧ id' = id) := by simpa using hkey
    rw [beq_eq_false_iff_ne.2 hkey]
    simp [hne]

theorem named (hint id : String) :
    Records (s.named hint id).2 ((⟨hint, some id⟩, (s.named hint id).1) :: done) := by
  cases hlookup : s.memo.lookup (hint, id) with
  | some x =>
    simp only [NameSupply.named, hlookup]
    exact h.of_lookup hlookup
  | none =>
    simp only [NameSupply.named, hlookup]
    split
    · exact h.introduce (s.numbered_nextNumber_notMem _) hlookup
    · rename_i hfree
      exact h.introduce (fun hmem => hfree (List.contains_iff_mem.2 hmem)) hlookup

theorem allocate (r : Request) :
    Records (s.allocate r.hint r.id).2 ((r, (s.allocate r.hint r.id).1) :: done) := by
  obtain ⟨hint, id⟩ := r
  cases id with
  | none => exact h.fresh hint
  | some id => exact h.named hint id

theorem serve (requests : List Request) :
    Records (s.serve requests).2 ((requests.zip (s.serve requests).1).reverse ++ done) := by
  induction requests generalizing s done with
  | nil => exact h
  | cons r rest ih =>
    have hrest := ih (h.allocate r)
    simpa [NameSupply.serve] using hrest

/-- In a record, equal names tell equal requests with an id. -/
theorem eq_iff_agrees : done.Pairwise fun a b => a.2 = b.2 ↔ a.1.Agrees b.1 := by
  refine h.again.imp_of_mem fun {a b} ha hb hagain => ?_
  constructor
  · intro heq
    exact ⟨hagain heq, h.owner a ha b hb heq⟩
  · rintro ⟨hid, heq⟩
    obtain ⟨⟨hint, id⟩, x⟩ := a
    obtain ⟨r, y⟩ := b
    obtain ⟨id, rfl⟩ := Option.isSome_iff_exists.1 hid
    cases heq
    have hx := (h.memo hint id x).2 ha
    rw [(h.memo hint id y).2 hb] at hx
    exact (Option.some.inj hx).symm

theorem size_eq : s.size = (done.map Prod.snd).dedup.length := by
  refine List.Perm.length_eq ((List.perm_ext_iff_of_nodup h.nodup (List.nodup_dedup _)).2 ?_)
  intro x
  rw [h.used, List.mem_dedup]

end Records

/-! ### Supplies that grow -/

/-- One supply comes from the other by handing out names. -/
structure Extends (a b : NameSupply) : Prop where
  used : ∀ x ∈ a.used, x ∈ b.used
  kept : ∀ key x, a.memo.lookup key = some x → b.memo.lookup key = some x
  added : ∀ key x, b.memo.lookup key = some x → a.memo.lookup key = some x ∨ x ∉ a.used

namespace Extends

variable {a b c : NameSupply}

theorem refl (a : NameSupply) : a.Extends a := ⟨fun _ h => h, fun _ _ h => h, fun _ _ h => .inl h⟩

theorem trans (h : a.Extends b) (k : b.Extends c) : a.Extends c where
  used x hx := k.used x (h.used x hx)
  kept key x hx := k.kept key x (h.kept key x hx)
  added key x hx := by
    rcases k.added key x hx with hx | hx
    · exact h.added key x hx
    · exact .inr fun hused => hx (h.used x hused)

theorem fresh (a : NameSupply) (hint : String) : a.Extends (a.fresh hint).2 :=
  ⟨fun _ h => .tail _ h, fun _ _ h => h, fun _ _ h => .inl h⟩

/-- A new entry of the memo has a name that was not in use. -/
theorem introduce {key : String × String} {x : String} (hx : x ∉ a.used)
    (hnone : a.memo.lookup key = none) (counter : Nat) :
    a.Extends ⟨counter, x :: a.used, (key, x) :: a.memo⟩ where
  used _ h := .tail _ h
  kept key' y h := by
    rw [List.lookup_cons]
    split
    · rename_i heq
      rw [beq_iff_eq.1 heq, hnone] at h
      cases h
    · exact h
  added key' y h := by
    rw [List.lookup_cons] at h
    split at h
    · cases h; exact .inr hx
    · exact .inl h

theorem named (a : NameSupply) (hint id : String) : a.Extends (a.named hint id).2 := by
  cases hlookup : a.memo.lookup (hint, id) with
  | some x => simp only [NameSupply.named, hlookup]; exact refl a
  | none =>
    simp only [NameSupply.named, hlookup]
    split
    · exact introduce (a.numbered_nextNumber_notMem _) hlookup _
    · rename_i hfree
      exact introduce (fun hmem => hfree (List.contains_iff_mem.2 hmem)) hlookup _

end Extends

theorem lookup_named (s : NameSupply) (hint id : String) :
    (s.named hint id).2.memo.lookup (hint, id) = some (s.named hint id).1 := by
  cases hlookup : s.memo.lookup (hint, id) with
  | some x => simp only [NameSupply.named, hlookup]
  | none =>
    simp only [NameSupply.named, hlookup]
    split <;> simp

/-- The name for one thing leaves the names for all others as they were. -/
theorem lookup_named_of_ne (s : NameSupply) {hint id : String} {key : String × String}
    (h : (hint, id) ≠ key) : (s.named hint id).2.memo.lookup key = s.memo.lookup key := by
  cases hlookup : s.memo.lookup (hint, id) with
  | some x => simp only [NameSupply.named, hlookup]
  | none =>
    simp only [NameSupply.named, hlookup]
    split <;> simp only [List.lookup_cons, beq_eq_false_iff_ne.2 h.symm, NameSupply.fresh,
      NameSupply.nextFree]

/-! ### Supplies of sessions -/

/-- The name is made of the hint and the id, with a number behind them if need be. -/
def Derived (hint id x : String) : Prop :=
  x = joined hint id ∨ ∃ n, x = numbered (joined hint id) n

/-- What holds of a supply whatever was asked of it. -/
structure Sound (s : NameSupply) : Prop where
  records : ∃ done, s.Records done
  derived : ∀ hint id x, s.memo.lookup (hint, id) = some x → Derived hint id x

namespace Sound

variable {s : NameSupply}

theorem empty : Sound NameSupply.empty := ⟨⟨[], .empty⟩, nofun⟩

theorem fresh (h : s.Sound) (hint : String) : (s.fresh hint).2.Sound :=
  ⟨let ⟨_, hdone⟩ := h.records; ⟨_, hdone.fresh hint⟩, h.derived⟩

/-- A name that is in the memo is in use. -/
theorem mem_used (h : s.Sound) {key : String × String} {x : String}
    (hx : s.memo.lookup key = some x) : x ∈ s.used := by
  obtain ⟨done, hdone⟩ := h.records
  exact hdone.mem_used ((hdone.memo _ _ _).1 hx)

/-- A name in the memo belongs to one hint and id. -/
theorem key_eq (h : s.Sound) {a b : String × String} {x : String}
    (ha : s.memo.lookup a = some x) (hb : s.memo.lookup b = some x) : a = b := by
  obtain ⟨done, hdone⟩ := h.records
  have heq := hdone.owner _ ((hdone.memo _ _ _).1 ha) _ ((hdone.memo _ _ _).1 hb) rfl
  injection heq with hhint hid
  exact Prod.ext hhint (Option.some.inj hid)

theorem named (h : s.Sound) (hint id : String) : (s.named hint id).2.Sound where
  records := let ⟨_, hdone⟩ := h.records; ⟨_, hdone.named hint id⟩
  derived hint' id' x hx := by
    cases hlookup : s.memo.lookup (hint, id) with
    | some y =>
      simp only [NameSupply.named, hlookup] at hx
      exact h.derived hint' id' x hx
    | none =>
      by_cases hkey : (hint', id') = (hint, id)
      · cases hkey
        rw [lookup_named] at hx
        cases hx
        simp only [NameSupply.named, hlookup]
        split
        · exact .inr ⟨_, rfl⟩
        · exact .inl rfl
      · refine h.derived hint' id' x ?_
        simp only [NameSupply.named, hlookup] at hx
        split at hx
        · rwa [List.lookup_cons, beq_eq_false_iff_ne.2 hkey] at hx
        · rwa [List.lookup_cons, beq_eq_false_iff_ne.2 hkey] at hx

theorem allocate (h : s.Sound) (hint : String) (id : Option String) :
    (s.allocate hint id).2.Sound := by
  cases id with
  | none => exact h.fresh hint
  | some id => exact h.named hint id

end Sound

/-! ### Whole runs -/

@[simp]
theorem length_serve (s : NameSupply) (requests : List Request) :
    (s.serve requests).1.length = requests.length := by
  induction requests generalizing s with
  | nil => rfl
  | cons r rest ih => simp [serve, ih]

/-- What is handed out does not depend on later requests. -/
theorem serve_take (s : NameSupply) (requests : List Request) (k : Nat) :
    (s.serve (requests.take k)).1 = (s.serve requests).1.take k := by
  induction requests generalizing s k with
  | nil => simp [serve]
  | cons r rest ih =>
    cases k with
    | zero => simp [serve]
    | succ k => simp [serve, ih]

/-- After a run from the start, the record holds each request of the run with its name. -/
theorem records_serve (requests : List Request) :
    Records (empty.serve requests).2 (requests.zip (empty.serve requests).1).reverse := by
  simpa using Records.empty.serve requests

theorem map_snd_zip_serve (s : NameSupply) (requests : List Request) :
    (requests.zip (s.serve requests).1).map Prod.snd = (s.serve requests).1 :=
  List.map_snd_zip (by simp)

/-- Over a whole run of a new supply, two requests are given the same name exactly if they are the
same request with an id, and after each request the names in use are those handed out so far. -/
theorem serve_injective (requests : List Request) :
    (empty.serve requests).1.length = requests.length ∧
    ((requests.zip (empty.serve requests).1).Pairwise fun a b => a.2 = b.2 ↔ a.1.Agrees b.1) ∧
    ∀ k, (∀ x, (empty.serve (requests.take k)).2.isUsed x = true ↔
        x ∈ (empty.serve requests).1.take k) ∧
      (empty.serve (requests.take k)).2.size = ((empty.serve requests).1.take k).dedup.length := by
  refine ⟨length_serve _ _, ?_, fun k => ⟨fun x => ?_, ?_⟩⟩
  · have hpairs := List.pairwise_reverse.1 (records_serve requests).eq_iff_agrees
    refine hpairs.imp fun {a b} hab => ?_
    exact ⟨fun heq => (hab.1 heq.symm).symm, fun hagree => (hab.2 hagree.symm).symm⟩
  · have hused := (records_serve (requests.take k)).used x
    rw [List.map_reverse, List.mem_reverse, map_snd_zip_serve, serve_take] at hused
    exact List.contains_iff_mem.trans hused
  · have hsize := (records_serve (requests.take k)).size_eq
    rw [List.map_reverse, map_snd_zip_serve, serve_take] at hsize
    rw [hsize]
    exact (List.reverse_perm _).dedup.length_eq

example : (empty.serve [⟨"value", some "3"⟩, ⟨"value_3", none⟩, ⟨"value", some "3_1"⟩,
    ⟨"value", some "3"⟩]).1 = ["value_3", "value_3_1", "value_3_1_2", "value_3"] := by decide

end PacketC.NameSupply
