import PacketC.Persist.Config
import PacketC.Proofs.Persist.Codec

/-! Settings that are given in part. An object that holds some of the settings, in any order and
among members that no setting goes by, is read as the standard settings with those changed. -/

namespace PacketC

/-- The fields of the settings, each with the key it goes by and the tree that is written for it. -/
inductive Setting where
  | digestSleepMillis
  | emitDebugTraces
  | argTypedExternals
  | packetOutType
  | lockMacro
  | unlockMacro
  | indentation
  | useColors
  deriving DecidableEq

namespace Setting

def all : List Setting :=
  [.digestSleepMillis, .emitDebugTraces, .argTypedExternals, .packetOutType, .lockMacro,
    .unlockMacro, .indentation, .useColors]

def key : Setting → String
  | .digestSleepMillis => "digest_sleep_millis"
  | .emitDebugTraces => "emit_debug_traces"
  | .argTypedExternals => "arg_typed_externs"
  | .packetOutType => "packet_out_type"
  | .lockMacro => "lock_macro"
  | .unlockMacro => "unlock_macro"
  | .indentation => "indent_style"
  | .useColors => "use_colors"

def value (c : Config) : Setting → Json
  | .digestSleepMillis => .nat c.digestSleepMillis.toNat
  | .emitDebugTraces => .bool c.emitDebugTraces
  | .argTypedExternals => .list .text c.argTypedExternals
  | .packetOutType => .text c.packetOutType
  | .lockMacro => .text c.lockMacro
  | .unlockMacro => .text c.unlockMacro
  | .indentation => c.indentation.toJson
  | .useColors => .bool c.useColors

def entry (c : Config) (f : Setting) : String × Json := (f.key, f.value c)

theorem nodup_all : all.Nodup := by decide

theorem mem_all (f : Setting) : f ∈ all := by cases f <;> decide

theorem key_mem (f : Setting) : f.key ∈ Config.keys := by cases f <;> decide

theorem key_injective : Function.Injective key := by
  intro f g h
  cases f <;> cases g <;> first | rfl | exact absurd h (by decide)

theorem depth_value (c : Config) (f : Setting) : (f.value c).depth ≤ 1 := by
  cases f with
  | argTypedExternals =>
    refine Json.depth_arr_le.2 ⟨0, rfl, fun j hj => ?_⟩
    obtain ⟨s, -, rfl⟩ := List.mem_map.1 hj
    exact Nat.le_refl 0
  | indentation =>
    rw [value]
    cases c.indentation <;> exact Nat.le_of_ble_eq_true rfl
  | _ => exact Nat.zero_le 1

end Setting

theorem Codec.indentation : Codec Indentation.toJson Indentation.ofJson where
  plain style := by cases style <;> simp [Indentation.toJson]
  ne_null style := by cases style <;> nofun
  faithful {style d} h := by
    cases style with
    | tabs => cases d <;> rfl
    | spaces count => exact Codec.payload Codec.uint64 (fun _ => rfl) h
  depth_le {d j style} h := by
    unfold Indentation.ofJson at h
    split at h
    · cases h; exact Nat.zero_le _
    · cases h; exact Nat.zero_le _
    · obtain ⟨count, -, rfl⟩ := Option.map_eq_some_iff.1 h
      exact Codec.depth_tagged (Nat.zero_le _)
    · cases h

namespace Setting

theorem plain_value (c : Config) (f : Setting) : (f.value c).Plain := by
  cases f with
  | argTypedExternals => exact Codec.string.list.plain c.argTypedExternals
  | indentation => exact Codec.indentation.plain c.indentation
  | digestSleepMillis => exact Json.plain_nat _
  | emitDebugTraces | useColors => exact Json.plain_bool _
  | packetOutType | lockMacro | unlockMacro => exact Json.plain_text _

end Setting

namespace Config

/-- Where a setting is taken from if just those in `given` are. -/
def source (c : Config) (given : List Setting) (f : Setting) : Config :=
  if f ∈ given then c else standard

/-- The settings of `c` in `given`, and the standard ones elsewhere. -/
def override (c : Config) (given : List Setting) : Config where
  digestSleepMillis := (c.source given .digestSleepMillis).digestSleepMillis
  emitDebugTraces := (c.source given .emitDebugTraces).emitDebugTraces
  argTypedExternals := (c.source given .argTypedExternals).argTypedExternals
  packetOutType := (c.source given .packetOutType).packetOutType
  lockMacro := (c.source given .lockMacro).lockMacro
  unlockMacro := (c.source given .unlockMacro).unlockMacro
  indentation := (c.source given .indentation).indentation
  useColors := (c.source given .useColors).useColors

theorem override_all (c : Config) : c.override Setting.all = c := by
  simp only [override, source, Setting.mem_all, if_true]

/-! ### Reading an object -/

variable {c : Config} {given : List Setting} {entries others members : List (String × Json)}

/-- The members that go by a setting are the given settings, each once. -/
theorem namedFields_of_perm (hgiven : given.Nodup)
    (hothers : ∀ m ∈ others, m.1 ∉ keys)
    (hmembers : members.Perm (given.map (Setting.entry c) ++ others)) :
    ∃ entries, Decoder.namedFields keys (members.map fun m => (some m.1, m.2)) = some entries ∧
      entries.Perm (given.map (Setting.entry c)) ∧ (entries.map Prod.fst).Nodup := by
  have hknown : (members.filter fun m => keys.contains m.1).Perm
      (given.map (Setting.entry c)) := by
    refine (hmembers.filter _).trans (.of_eq ?_)
    have hkeep : (given.map (Setting.entry c)).filter (fun m => keys.contains m.1) =
        given.map (Setting.entry c) := by
      simp [List.filter_eq_self, Setting.entry, Setting.key_mem]
    have hdrop : others.filter (fun m => keys.contains m.1) = [] := by
      simpa [List.filter_eq_nil_iff] using hothers
    rw [List.filter_append, hkeep, hdrop, List.append_nil]
  have hnodup : ((members.filter fun m => keys.contains m.1).map Prod.fst).Nodup := by
    rw [(hknown.map Prod.fst).nodup_iff, List.map_map]
    exact List.Pairwise.map _ (fun _ _ hne hkey => hne (Setting.key_injective hkey)) hgiven
  exact ⟨_, Codec.namedFields_eq hnodup, hknown, hnodup⟩

theorem lookup_of_perm (hentries : entries.Perm (given.map (Setting.entry c)))
    (hnodup : (entries.map Prod.fst).Nodup) (f : Setting) :
    entries.lookup f.key = if f ∈ given then some (f.value c) else none := by
  split
  · exact Codec.lookup_of_mem hnodup (hentries.mem_iff.2 (List.mem_map_of_mem ‹f ∈ given›))
  · rw [List.lookup_eq_none_iff]
    intro m hm
    obtain ⟨g, hg, rfl⟩ := List.mem_map.1 (hentries.mem_iff.1 hm)
    rw [bne_iff_ne]
    exact fun hkey => ‹f ∉ given› (Setting.key_injective hkey ▸ hg)

/-- A setting is read from its entry if it is given, and is the standard one otherwise. -/
theorem getD_of_lookup {α : Type} {encode : α → Json} {decode : Decoder α}
    (codec : Codec encode decode) (part : Config → α) {f : Setting}
    (hvalue : f.value c = encode (part c))
    (hlookup : entries.lookup f.key = if f ∈ given then some (f.value c) else none) {d : Nat} :
    Decoder.Fields.getD ⟨d + 1, entries⟩ f.key decode (part standard) =
      some (part (c.source given f)) := by
  rw [Decoder.Fields.getD, hlookup, source]
  by_cases hf : f ∈ given
  · have hdepth : (encode (part c)).depth ≤ d + 1 :=
      hvalue ▸ (f.depth_value c).trans (Nat.le_add_left 1 d)
    simp only [hf, if_true, hvalue, codec.faithful hdepth]
  · simp only [hf, if_false]

theorem ofJson_of_perm (hgiven : given.Nodup) (hothers : ∀ m ∈ others, m.1 ∉ keys)
    (hmembers : members.Perm (given.map (Setting.entry c) ++ others)) (d : Nat) :
    ofJson (d + 2) (.record members) = some (c.override given) := by
  obtain ⟨entries, hfields, hentries, hnodup⟩ := namedFields_of_perm hgiven hothers hmembers
  have hlookup := lookup_of_perm hentries hnodup
  have hread : Decoder.leadingFields keys (d + 2) (.record members) = some ⟨d + 1, entries⟩ := by
    rw [Json.record, Decoder.leadingFields, hfields, Option.map_some]
  have hmillis :=
    getD_of_lookup Codec.uint64 digestSleepMillis rfl (hlookup .digestSleepMillis) (d := d)
  have htraces := getD_of_lookup Codec.bool emitDebugTraces rfl (hlookup .emitDebugTraces) (d := d)
  have hexternals :=
    getD_of_lookup Codec.string.list argTypedExternals rfl (hlookup .argTypedExternals) (d := d)
  have hpacketOut := getD_of_lookup Codec.string packetOutType rfl (hlookup .packetOutType) (d := d)
  have hlock := getD_of_lookup Codec.string lockMacro rfl (hlookup .lockMacro) (d := d)
  have hunlock := getD_of_lookup Codec.string unlockMacro rfl (hlookup .unlockMacro) (d := d)
  have hindent := getD_of_lookup Codec.indentation indentation rfl (hlookup .indentation) (d := d)
  have hcolors := getD_of_lookup Codec.bool useColors rfl (hlookup .useColors) (d := d)
  simp only [Setting.key] at hmillis htraces hexternals hpacketOut hlock hunlock hindent hcolors
  simp only [ofJson, hread, hmillis, htraces, hexternals, hpacketOut, hlock, hunlock, hindent,
    hcolors, Option.bind_eq_bind, Option.bind_some, Option.pure_def, override]

theorem read_of_parse (hgiven : given.Nodup) (hothers : ∀ m ∈ others, m.1 ∉ keys)
    (hmembers : members.Perm (given.map (Setting.entry c) ++ others)) {text : String}
    (htext : Json.parse? text = some (.record members)) : read text = .ok (c.override given) := by
  rw [read, htext]
  simp only [ofTree, Json.maxDepth, ofJson_of_perm hgiven hothers hmembers]

theorem plain_of_perm (hothers : ∀ m ∈ others, m.2.Plain)
    (hmembers : members.Perm (given.map (Setting.entry c) ++ others)) :
    (Json.record members).Plain := by
  rw [Json.plain_record]
  intro m hm
  rcases List.mem_append.1 (hmembers.mem_iff.1 hm) with hm | hm
  · obtain ⟨f, -, rfl⟩ := List.mem_map.1 hm
    exact f.plain_value c
  · exact hothers m hm

/-- Whatever text is read as an object of the settings of `c` in `given`, in any order and among
other members, gives `c` there and the standard settings elsewhere. The printed form of such an
object is such a text where the other members have one, and all the settings are read back. -/
theorem read_partial (c : Config) (given : List Setting) (others members : List (String × Json))
    (hgiven : given.Nodup) (hothers : ∀ m ∈ others, m.1 ∉ keys)
    (hmembers : members.Perm (given.map (Setting.entry c) ++ others)) :
    (∀ text, Json.parse? text = some (.record members) → read text = .ok (c.override given)) ∧
    ((∀ m ∈ others, m.2.Plain) →
      read (Json.pretty (.record members)) = .ok (c.override given)) ∧
    read (Json.pretty c.toJson) = .ok c := by
  refine ⟨fun text htext => read_of_parse hgiven hothers hmembers htext, fun hplain => ?_, ?_⟩
  · exact read_of_parse hgiven hothers hmembers (Json.parse?_pretty (plain_of_perm hplain hmembers))
  · have hall : (Setting.all.map (Setting.entry c)).Perm
        (Setting.all.map (Setting.entry c) ++ []) := by rw [List.append_nil]
    have hread := read_of_parse Setting.nodup_all (fun _ hm => absurd hm List.not_mem_nil) hall
      (Json.parse?_pretty (plain_of_perm (fun _ hm => absurd hm List.not_mem_nil) hall))
    rwa [override_all] at hread

theorem read_partial_tabs :
    read (Json.pretty (.record [("later", .list .text ["a\n"]), ("later", .null),
      ("indent_style", .text "Tabs"), ("lock_macro", .text "\"")])) =
    .ok { standard with indentation := .tabs, lockMacro := "\"" } :=
  (read_partial { standard with indentation := .tabs, lockMacro := "\"" }
    [.lockMacro, .indentation] [("later", .null), ("later", .list .text ["a\n"])] _
    (by decide) (by decide) (List.reverse_perm _)).2.1 (by
      simp only [List.forall_mem_cons]
      exact ⟨trivial, Codec.string.list.plain _, List.forall_mem_nil _⟩)

end Config

end PacketC
