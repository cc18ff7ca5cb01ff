import PacketC.Persist.Limbs
import PacketC.Proofs.Json.ReadBack

/-! Pairs of an encoder and a decoder that belong together. What such an encoder writes has a text
that can be read back, is never null, and is decoded to the value it was written for wherever it
may nest deep enough. A decoder takes many spellings of one value, and whatever it takes, the form
that is written for the value nests no deeper than the decoder was allowed to go. Lists, records and
tagged payloads of such pairs are such pairs again. -/

namespace PacketC

/-! ### Trees -/

namespace Json

variable {items : List Json} {d : Nat} {members : List (Option String × Json)}

theorem depthItems_le : depthItems items ≤ d ↔ ∀ j ∈ items, j.depth ≤ d := by
  induction items with
  | nil => simp [depthItems]
  | cons j rest ih => rw [depthItems, Nat.max_le, ih, List.forall_mem_cons]

theorem depthMembers_le : depthMembers members ≤ d ↔ ∀ m ∈ members, m.2.depth ≤ d := by
  induction members with
  | nil => simp [depthMembers]
  | cons m rest ih => rw [depthMembers, Nat.max_le, ih, List.forall_mem_cons]

theorem depth_arr_le : (Json.arr items).depth ≤ d ↔ ∃ k, d = k + 1 ∧ ∀ j ∈ items, j.depth ≤ k := by
  cases d with
  | zero => simp [depth]
  | succ k => simp [depth, depthItems_le]

theorem depth_record_le {members : List (String × Json)} :
    (Json.record members).depth ≤ d ↔ ∃ k, d = k + 1 ∧ ∀ m ∈ members, m.2.depth ≤ k := by
  cases d with
  | zero => simp [record, depth]
  | succ k =>
    simp only [record, depth, Nat.add_le_add_iff_right, depthMembers_le, List.forall_mem_map,
      Nat.add_right_cancel_iff, exists_eq_left']

theorem depth_tagged_le {tag : String} {payload : Json} :
    (Json.tagged tag payload).depth ≤ d ↔ ∃ k, d = k + 1 ∧ payload.depth ≤ k := by
  simp [tagged, depth_record_le]

theorem plainItems_iff : PlainItems items ↔ ∀ j ∈ items, Plain j := by
  induction items with
  | nil => simp [PlainItems]
  | cons j rest ih => simp [PlainItems, ih]

theorem plainMembers_iff : PlainMembers members ↔ ∀ m ∈ members, m.1.isSome ∧ Plain m.2 := by
  induction members with
  | nil => simp [PlainMembers]
  | cons m rest ih => simp [PlainMembers, ih, and_assoc]

@[simp] theorem plain_arr : Plain (.arr items) ↔ ∀ j ∈ items, Plain j := by
  rw [Plain, plainItems_iff]

@[simp] theorem plain_record {members : List (String × Json)} :
    Plain (.record members) ↔ ∀ m ∈ members, Plain m.2 := by
  simp only [record, Plain, plainMembers_iff, List.forall_mem_map, Option.isSome_some, true_and]

@[simp] theorem plain_tagged {tag : String} {payload : Json} :
    Plain (.tagged tag payload) ↔ Plain payload := by
  simp [tagged]

@[simp] theorem depth_text (s : String) : (Json.text s).depth = 0 := (rfl)

@[simp] theorem depth_nat (n : Nat) : (Json.nat n).depth = 0 := (rfl)

@[simp] theorem depth_bool (b : Bool) : (Json.bool b).depth = 0 := (rfl)

@[simp] theorem plain_text (s : String) : Plain (.text s) := by simp [text, Plain]

@[simp] theorem plain_int (n : Int) : Plain (.int n) := trivial

@[simp] theorem plain_nat (n : Nat) : Plain (.nat n) := trivial

@[simp] theorem plain_bool (b : Bool) : Plain (.bool b) := trivial

end Json

/-! ### Codecs -/

structure Codec {α : Type} (encode : α → Json) (decode : Decoder α) : Prop where
  plain : ∀ a, (encode a).Plain
  ne_null : ∀ a, encode a ≠ .null
  faithful : ∀ {a d}, (encode a).depth ≤ d → decode d (encode a) = some a
  depth_le : ∀ {d j a}, decode d j = some a → (encode a).depth ≤ d

namespace Codec

variable {α β : Type} {encode : α → Json} {decode : Decoder α} {tag : String} {d : Nat}
  {members : List (String × Json)} {keys : List String}

theorem string : Codec Json.text Decoder.string where
  plain := Json.plain_text
  ne_null := nofun
  faithful _ := rfl
  depth_le _ := Nat.zero_le _

theorem bool : Codec Json.bool Decoder.bool where
  plain := Json.plain_bool
  ne_null := nofun
  faithful _ := rfl
  depth_le _ := Nat.zero_le _

theorem natBelow_nat {bound n : Nat} (h : n < bound) (d : Nat) :
    Decoder.natBelow bound d (.nat n) = some n := if_pos h

theorem uint32 : Codec (fun n : UInt32 => Json.nat n.toNat) Decoder.uint32 where
  plain n := Json.plain_nat n.toNat
  ne_null := nofun
  faithful {n d} _ := by
    rw [Decoder.uint32, natBelow_nat n.toNat_lt, Option.map_some, UInt32.ofNat_toNat]
  depth_le _ := Nat.zero_le _

theorem uint64 : Codec (fun n : UInt64 => Json.nat n.toNat) Decoder.uint64 where
  plain n := Json.plain_nat n.toNat
  ne_null := nofun
  faithful {n d} _ := by
    rw [Decoder.uint64, natBelow_nat n.toNat_lt, Option.map_some, UInt64.ofNat_toNat]
  depth_le _ := Nat.zero_le _

/-- Decoding item by item, where each item is read back. -/
theorem mapM_map {write : α → β} {read : β → Option α} {as : List α}
    (h : ∀ a ∈ as, read (write a) = some a) : (as.map write).mapM read = some as := by
  induction as with
  | nil => rfl
  | cons a as ih =>
    rw [List.map_cons, List.mapM_cons, h a List.mem_cons_self,
      ih fun b hb => h b (List.mem_cons_of_mem a hb)]
    rfl

/-- Every value in a decoded list comes from an item. -/
theorem exists_of_mapM {read : β → Option α} {js : List β} {as : List α}
    (h : js.mapM read = some as) : ∀ a ∈ as, ∃ j ∈ js, read j = some a := by
  induction js generalizing as with
  | nil =>
    cases h
    exact nofun
  | cons j js ih =>
    rw [List.mapM_cons] at h
    obtain ⟨b, hb, h⟩ := Option.bind_eq_some_iff.1 h
    obtain ⟨bs, hbs, h⟩ := Option.bind_eq_some_iff.1 h
    cases h
    refine List.forall_mem_cons.2 ⟨⟨j, .head js, hb⟩, fun a ha => ?_⟩
    obtain ⟨i, hi, hread⟩ := ih hbs a ha
    exact ⟨i, .tail j hi, hread⟩

theorem list (c : Codec encode decode) : Codec (Json.list encode) (Decoder.list decode) where
  plain as := by
    rw [Json.list, Json.plain_arr]
    rintro j hj
    obtain ⟨a, -, rfl⟩ := List.mem_map.1 hj
    exact c.plain a
  ne_null := nofun
  faithful {as d} h := by
    obtain ⟨k, rfl, hitems⟩ := Json.depth_arr_le.1 h
    exact mapM_map fun a ha => c.faithful (hitems _ (List.mem_map_of_mem ha))
  depth_le {d j as} h := by
    match d, j, h with
    | d + 1, .arr items, h =>
      refine Json.depth_arr_le.2 ⟨d, rfl, List.forall_mem_map.2 fun a ha => ?_⟩
      obtain ⟨j, -, hj⟩ := exists_of_mapM h a ha
      exact c.depth_le hj

theorem alternative {table : List (String × α)} {name : α → String}
    (h : ∀ a, table.lookup (name a) = some a) :
    Codec (fun a => Json.text (name a)) (Decoder.alternative table) where
  plain a := Json.plain_text (name a)
  ne_null := nofun
  faithful _ := h _
  depth_le _ := Nat.zero_le _

/-- A payload under its tag is read back where the payload is. -/
theorem tagged {outer inner : Decoder α} {payload : Json} {a : α}
    (houter : ∀ k, outer (k + 1) (.tagged tag payload) = inner k payload)
    (hinner : ∀ k, payload.depth ≤ k → inner k payload = some a)
    (h : (Json.tagged tag payload).depth ≤ d) : outer d (.tagged tag payload) = some a := by
  obtain ⟨k, rfl, hpayload⟩ := Json.depth_tagged_le.1 h
  rw [houter, hinner k hpayload]

theorem payload {outer : Decoder β} {wrap : α → β} {a : α} (c : Codec encode decode)
    (houter : ∀ k, outer (k + 1) (.tagged tag (encode a)) = (decode k (encode a)).map wrap)
    (h : (Json.tagged tag (encode a)).depth ≤ d) :
    outer d (.tagged tag (encode a)) = some (wrap a) := by
  obtain ⟨k, rfl, hpayload⟩ := Json.depth_tagged_le.1 h
  rw [houter, c.faithful hpayload, Option.map_some]

theorem depth_tagged {payload : Json} (h : payload.depth ≤ d) :
    (Json.tagged tag payload).depth ≤ d + 1 :=
  Json.depth_tagged_le.2 ⟨d, rfl, h⟩

/-! ### Fields -/

section

variable {r : Decoder.Fields} {key : String}

@[simp] theorem need_mk (k : Nat) (entries : List (String × Json)) :
    Decoder.Fields.need ⟨k, entries⟩ key decode = (entries.lookup key).bind (decode k) := rfl

variable (c : Codec encode decode)

include c

theorem need_of_lookup {a : α} (h : r.entries.lookup key = some (encode a))
    (hd : (encode a).depth ≤ r.depth) : r.need key decode = some a := by
  rw [need_mk, h, Option.bind_some, c.faithful hd]

theorem depth_of_need {a : α} (h : r.need key decode = some a) : (encode a).depth ≤ r.depth := by
  obtain ⟨j, -, hj⟩ := Option.bind_eq_some_iff.1 h
  exact c.depth_le hj

theorem plain_option (a : Option α) : (Json.option encode a).Plain := by
  cases a with
  | none => trivial
  | some a => exact c.plain a

variable {a : Option α}

theorem option {d : Nat} (h : (Json.option encode a).depth ≤ d) :
    Decoder.option decode d (Json.option encode a) = some a := by
  cases a with
  | none => rfl
  | some a =>
    rw [Json.option, Decoder.option, c.faithful h, Option.map_some]
    exact c.ne_null a

theorem may_of_lookup (h : r.entries.lookup key = some (Json.option encode a))
    (hd : (Json.option encode a).depth ≤ r.depth) : r.may key decode = some a := by
  simp only [Decoder.Fields.may, h, c.option hd]

theorem depth_of_may (h : r.may key decode = some a) : (Json.option encode a).depth ≤ r.depth := by
  unfold Decoder.Fields.may Decoder.option at h
  cases a with
  | none => exact Nat.zero_le _
  | some a =>
    split at h
    · cases h
    · split at h
      · cases h
      · obtain ⟨b, hb, heq⟩ := Option.map_eq_some_iff.1 h
        cases heq
        exact c.depth_le hb

end

/-! ### Records -/

/-- The members of an object that go by a key, if no two of them go by the same. -/
theorem namedFields_eq (hnodup : ((members.filter fun m => keys.contains m.1).map Prod.fst).Nodup) :
    Decoder.namedFields keys (members.map fun m => (some m.1, m.2)) =
      some (members.filter fun m => keys.contains m.1) := by
  have hnamed : (members.map fun m => (some m.1, m.2)).mapM
      (fun m : Option String × Json => m.1.map fun key => (key, m.2)) = some members :=
    mapM_map fun _ _ => rfl
  rw [Decoder.namedFields, hnamed]
  simp only [Option.bind_eq_bind, Option.bind_some, hnodup, if_true]

theorem namedFields_record (hnodup : (members.map Prod.fst).Nodup) :
    Decoder.namedFields (members.map Prod.fst) (members.map fun m => (some m.1, m.2)) =
      some members := by
  have hknown : members.filter (fun m => (members.map Prod.fst).contains m.1) = members := by
    rw [List.filter_eq_self]
    intro m hm
    rw [List.contains_iff_mem]
    exact List.mem_map_of_mem hm
  rw [namedFields_eq (by rwa [hknown]), hknown]

/-- A record is read as the members it was written with. -/
theorem bind_fields {read : Decoder.Fields → Option β} {b : β} (hkeys : members.map Prod.fst = keys)
    (hnodup : keys.Nodup) (hread : ∀ k, (∀ m ∈ members, m.2.depth ≤ k) → read ⟨k, members⟩ = some b)
    (h : (Json.record members).depth ≤ d) :
    (Decoder.fields keys d (.record members)).bind read = some b := by
  obtain ⟨k, rfl, hmembers⟩ := Json.depth_record_le.1 h
  subst hkeys
  rw [Json.record, Decoder.fields, namedFields_record hnodup, Option.map_some, Option.bind_some,
    hread k hmembers]

variable {j : Json} {r : Decoder.Fields}

theorem depth_of_fields (h : Decoder.fields keys d j = some r) : d = r.depth + 1 := by
  unfold Decoder.fields at h
  split at h
  · obtain ⟨-, heq⟩ := Option.ite_none_right_eq_some.1 h
    cases heq
    rfl
  · obtain ⟨entries, -, heq⟩ := Option.map_eq_some_iff.1 h
    cases heq
    rfl
  · cases h

/-- A record fits where its fields do, one level deeper. -/
theorem depth_record (h : Decoder.fields keys d j = some r)
    (hmembers : ∀ m ∈ members, m.2.depth ≤ r.depth) : (Json.record members).depth ≤ d :=
  Json.depth_record_le.2 ⟨r.depth, depth_of_fields h, hmembers⟩

theorem depth_tagged_record (h : Decoder.fields keys d j = some r)
    (hmembers : ∀ m ∈ members, m.2.depth ≤ r.depth) :
    (Json.tagged tag (.record members)).depth ≤ d + 1 :=
  depth_tagged (depth_record h hmembers)

theorem mem_of_lookup {l : List (String × α)} {a : α} (h : l.lookup tag = some a) :
    (tag, a) ∈ l := by
  obtain ⟨before, after, rfl, -⟩ := List.lookup_eq_some_iff.1 h
  exact List.mem_append_right _ (.head after)

theorem depth_of_lookup {table : List (String × α)} {toJson : α → Json} {a : α}
    (hall : ∀ m ∈ table, (toJson m.2).depth = 0) (h : table.lookup tag = some a) (d : Nat) :
    (toJson a).depth ≤ d :=
  (hall _ (mem_of_lookup h)).le.trans (Nat.zero_le d)

theorem lookup_of_mem {entries : List (String × Json)} {key : String}
    (hnodup : (entries.map Prod.fst).Nodup) (h : (key, j) ∈ entries) :
    entries.lookup key = some j := by
  induction entries with
  | nil => cases h
  | cons m rest ih =>
    obtain ⟨hfresh, hrest⟩ := List.nodup_cons.1 hnodup
    rw [List.lookup_cons]
    rcases List.mem_cons.1 h with rfl | h
    · rw [beq_self_eq_true]
    · have hne : key ≠ m.1 := fun hkey => hfresh (hkey ▸ List.mem_map_of_mem h)
      rw [beq_false_of_ne hne, ih hrest h]

/-- `read` takes a record apart, field by field. The members `rest` are still to be read, and what
was read before says `known` of the value. -/
structure Reads (rest : List (String × (α → Json))) (known : α → Prop)
    (read : Decoder.Fields → Option α) : Prop where
  plain : ∀ a, ∀ m ∈ rest, (m.2 a).Plain
  faithful : ∀ {a r}, known a →
    (∀ m ∈ rest, r.entries.lookup m.1 = some (m.2 a) ∧ (m.2 a).depth ≤ r.depth) → read r = some a
  depth_le : ∀ {r a}, read r = some a → known a ∧ ∀ m ∈ rest, (m.2 a).depth ≤ r.depth

namespace Reads

variable {rest : List (String × (β → Json))} {known : β → Prop} {key : String}

theorem done {b : β} (h : ∀ b', known b' ↔ b' = b) : Reads [] known fun _ => some b where
  plain := nofun
  faithful hb _ := congrArg some ((h _).1 hb).symm
  depth_le hr := ⟨(h _).2 (Option.some.inj hr).symm, nofun⟩

theorem step {look : Decoder.Fields → Option α} {part : β → α}
    {f : α → Decoder.Fields → Option β} (hplain : ∀ a, (encode a).Plain)
    (hlook : ∀ {r a}, r.entries.lookup key = some (encode a) → (encode a).depth ≤ r.depth →
      look r = some a)
    (hdepth : ∀ {r a}, look r = some a → (encode a).depth ≤ r.depth)
    (h : ∀ a, Reads rest (fun b => known b ∧ part b = a) (f a)) :
    Reads ((key, fun b => encode (part b)) :: rest) known fun r => (look r).bind (f · r) where
  plain b := List.forall_mem_cons.2 ⟨hplain _, (h (part b)).plain b⟩
  faithful {b r} hb hr := by
    obtain ⟨⟨hkey, hpart⟩, hrest⟩ := List.forall_mem_cons.1 hr
    rw [hlook hkey hpart, Option.bind_some, (h _).faithful ⟨hb, rfl⟩ hrest]
  depth_le {r b} hr := by
    obtain ⟨a, ha, hr⟩ := Option.bind_eq_some_iff.1 hr
    obtain ⟨⟨hb, rfl⟩, hrest⟩ := (h a).depth_le hr
    exact ⟨hb, List.forall_mem_cons.2 ⟨hdepth ha, hrest⟩⟩

theorem need {part : β → α} {f : α → Decoder.Fields → Option β} (c : Codec encode decode)
    (h : ∀ a, Reads rest (fun b => known b ∧ part b = a) (f a)) :
    Reads ((key, fun b => encode (part b)) :: rest) known
      fun r => (r.need key decode).bind (f · r) :=
  step c.plain c.need_of_lookup c.depth_of_need h

theorem may {part : β → Option α} {f : Option α → Decoder.Fields → Option β}
    (c : Codec encode decode) (h : ∀ a, Reads rest (fun b => known b ∧ part b = a) (f a)) :
    Reads ((key, fun b => Json.option encode (part b)) :: rest) known
      fun r => (r.may key decode).bind (f · r) :=
  step c.plain_option c.may_of_lookup c.depth_of_may h

end Reads

theorem record {members : α → List (String × Json)} {rest : List (String × (α → Json))}
    {read : Decoder.Fields → Option α} (h : Reads rest (fun _ => True) read)
    (hmembers : ∀ a, members a = rest.map fun m => (m.1, m.2 a))
    (hkeys : rest.map Prod.fst = keys) (hnodup : keys.Nodup) :
    Codec (fun a => .record (members a)) fun d j => (Decoder.fields keys d j).bind read := by
  have hall (a : α) (P : Json → Prop) : (∀ m ∈ members a, P m.2) ↔ ∀ m ∈ rest, P (m.2 a) := by
    rw [hmembers, List.forall_mem_map]
  have hfst (a : α) : (members a).map Prod.fst = keys := by
    rw [hmembers, List.map_map, ← hkeys]
    rfl
  constructor
  case plain => exact fun a => Json.plain_record.2 ((hall a _).2 (h.plain a))
  case ne_null => exact nofun
  case faithful =>
    refine fun {a d} => bind_fields (hfst a) hnodup fun k hk => h.faithful trivial fun m hm => ?_
    refine ⟨lookup_of_mem ((hfst a).symm ▸ hnodup) ?_, (hall a (·.depth ≤ k)).1 hk m hm⟩
    rw [hmembers]
    exact List.mem_map_of_mem hm
  case depth_le =>
    intro d j a hread
    obtain ⟨r, hr, hread⟩ := Option.bind_eq_some_iff.1 hread
    exact depth_record hr ((hall a (·.depth ≤ r.depth)).2 (h.depth_le hread).2)

end Codec

end PacketC
