import Mathlib.Data.List.DropRight
import Mathlib.Data.List.TakeDrop
import PacketC.Json.Printer
import PacketC.Json.Reader
import PacketC.Proofs.Text.Digits

/-! Reading what was written. A tree of integers, texts and truth values is read back from its
indented form, whatever follows that form, as long as a number is not carried on. Each reader is
shown to undo its part of the printer, from the characters of a string up to whole trees. -/

namespace PacketC.Json

mutual

/-- Every number in the tree is an integer, and every string and every key has a text. -/
def Plain : Json → Prop
  | .real _ => False
  | .str text => text.isSome
  | .arr items => PlainItems items
  | .obj members => PlainMembers members
  | .null | .bool _ | .int _ => True

def PlainItems : List Json → Prop
  | [] => True
  | j :: rest => Plain j ∧ PlainItems rest

def PlainMembers : List (Option String × Json) → Prop
  | [] => True
  | (key, j) :: rest => key.isSome ∧ Plain j ∧ PlainMembers rest

end

namespace Reader

/-! ### Strings -/

theorem hexValue?_digitChar {d : Nat} (h : d < 16) : hexValue? (Nat.digitChar d) = some d := by
  have hall : ∀ d : Fin 16, hexValue? (Nat.digitChar d) = some d.val := by decide
  exact hall ⟨d, h⟩

variable {n fuel : Nat} {c : Char} {rest cs rest' : List Char} {j : Json}

theorem codeUnit?_escape (h : n < 0x20) :
    codeUnit? '0' '0' (Nat.digitChar (n / 16)) (Nat.digitChar (n % 16)) = some n := by
  have hzero : hexValue? '0' = some 0 := by decide
  have hhigh := hexValue?_digitChar (show n / 16 < 16 by omega)
  have hlow := hexValue?_digitChar (Nat.mod_lt n (show 0 < 16 by omega))
  simp only [codeUnit?, hzero, hhigh, hlow, Option.bind_eq_bind, Option.bind_some, Option.pure_def]
  congr 1
  omega

theorem pieces_of_plain (hquote : c ≠ '"') (hslash : c ≠ '\\') (hcontrol : ¬ c.toNat < 0x20)
    (rest : List Char) : pieces (c :: rest) = (pieces rest).map fun r => (.char c :: r.1, r.2) := by
  rw [pieces]
  · rw [if_neg hcontrol]
    cases pieces rest <;> rfl
  · exact fun h => hquote h
  · intro _ _ _ _ _ h
    exact absurd h hslash
  · intro _ _ h
    exact absurd h hslash

theorem pieces_of_short {e : Char} (h : shortEscape? e = some c) (rest : List Char) :
    pieces ('\\' :: e :: rest) = (pieces rest).map fun r => (.char c :: r.1, r.2) := by
  have hne : e ≠ 'u' := by
    rintro rfl
    cases h
  rw [pieces]
  · simp only [h, Option.bind_eq_bind, Option.bind_some]
    cases pieces rest <;> rfl
  · intro _ _ _ _ _ heq
    exact absurd heq hne

theorem pieces_of_control (h : n < 0x20) (rest : List Char) :
    pieces ('\\' :: 'u' :: '0' :: '0' :: Nat.digitChar (n / 16) :: Nat.digitChar (n % 16) :: rest) =
      (pieces rest).map fun r => (.unit n :: r.1, r.2) := by
  rw [pieces, codeUnit?_escape h]
  cases pieces rest <;> rfl

theorem assemble_of_control (h : n < 0x20) (ps : List Piece) :
    assemble (.unit n :: ps) = (assemble ps).map (Char.ofNat n :: ·) := by
  have hlow : isLowSurrogate n = false := by simp [isLowSurrogate]; omega
  have hhigh : isHighSurrogate n = false := by simp [isHighSurrogate]; omega
  rw [assemble.eq_def]
  simp [hlow, hhigh]

/-- What is written for a character is read as one piece, which stands for the character. -/
theorem pieces_escape (c : Char) : ∃ piece : Piece,
    (∀ rest, pieces (escape c ++ rest) = (pieces rest).map fun r => (piece :: r.1, r.2)) ∧
      ∀ ps, assemble (piece :: ps) = (assemble ps).map (c :: ·) := by
  have hchar : ∀ ps, assemble (.char c :: ps) = (assemble ps).map (c :: ·) := fun ps => by
    rw [assemble]
  -- the two-letter escapes differ in their letter only
  have hshort : ∀ e, shortEscape? e = some c → escape c = ['\\', e] → ∃ piece : Piece,
      (∀ rest, pieces (escape c ++ rest) = (pieces rest).map fun r => (piece :: r.1, r.2)) ∧
        ∀ ps, assemble (piece :: ps) = (assemble ps).map (c :: ·) := by
    intro e he hescape
    refine ⟨.char c, fun rest => ?_, hchar⟩
    rw [hescape]
    exact pieces_of_short he rest
  by_cases hquote : c = '"'
  · exact hshort '"' (by rw [hquote]; rfl) (by rw [hquote]; rfl)
  by_cases hslash : c = '\\'
  · exact hshort '\\' (by rw [hslash]; rfl) (by rw [hslash]; rfl)
  by_cases hback : c = '\x08'
  · exact hshort 'b' (by rw [hback]; rfl) (by rw [hback]; rfl)
  by_cases htab : c = '\t'
  · exact hshort 't' (by rw [htab]; rfl) (by rw [htab]; rfl)
  by_cases hline : c = '\n'
  · exact hshort 'n' (by rw [hline]; rfl) (by rw [hline]; rfl)
  by_cases hfeed : c = '\x0c'
  · exact hshort 'f' (by rw [hfeed]; rfl) (by rw [hfeed]; rfl)
  by_cases hreturn : c = '\r'
  · exact hshort 'r' (by rw [hreturn]; rfl) (by rw [hreturn]; rfl)
  by_cases hcontrol : c.toNat < 0x20
  · refine ⟨.unit c.toNat, fun rest => ?_, fun ps => ?_⟩
    · simp only [escape, hquote, hslash, hback, htab, hline, hfeed, hreturn, hcontrol, if_true,
        if_false]
      exact pieces_of_control hcontrol rest
    · rw [assemble_of_control hcontrol, Char.ofNat_toNat]
  · refine ⟨.char c, fun rest => ?_, hchar⟩
    simp only [escape, hquote, hslash, hback, htab, hline, hfeed, hreturn, hcontrol, if_false]
    exact pieces_of_plain hquote hslash hcontrol rest

theorem exists_pieces_quote (cs rest : List Char) :
    ∃ ps, pieces (cs.flatMap escape ++ '"' :: rest) = some (ps, rest) ∧ assemble ps = some cs := by
  induction cs with
  | nil => exact ⟨[], by simp [pieces], rfl⟩
  | cons c cs ih =>
    obtain ⟨ps, hps, hcs⟩ := ih
    obtain ⟨piece, hpiece, hassemble⟩ := pieces_escape c
    refine ⟨piece :: ps, ?_, ?_⟩
    · rw [List.flatMap_cons, List.append_assoc, hpiece, hps]
      rfl
    · rw [hassemble, hcs]
      rfl

theorem string_quote (s : String) (rest : List Char) :
    string (s.toList.flatMap escape ++ '"' :: rest) = some (some s, rest) := by
  obtain ⟨ps, hps, hcs⟩ := exists_pieces_quote s.toList rest
  simp only [string, hps, hcs, Option.bind_eq_bind, Option.bind_some, Option.map_some,
    String.ofList_toList, Option.pure_def]

/-! ### Numbers -/

/-- What follows a number does not carry it on. -/
def Ends (rest : List Char) : Prop :=
  ∀ c ∈ rest.head?, c.isDigit = false ∧ c ≠ '.' ∧ c ≠ 'e' ∧ c ≠ 'E'

theorem digits_append {ds : List Char} (hds : ∀ c ∈ ds, c.isDigit = true) (h : Ends rest) :
    digits (ds ++ rest) = (ds, rest) := by
  have htake : rest.takeWhile Char.isDigit = [] := by
    cases rest with
    | nil => rfl
    | cons c rest => simp [(h c rfl).1]
  have hdrop : rest.dropWhile Char.isDigit = rest := by
    cases rest with
    | nil => rfl
    | cons c rest => simp [(h c rfl).1]
  rw [digits, List.span_eq_takeWhile_dropWhile, List.takeWhile_append_of_pos hds,
    List.dropWhile_append_of_pos hds, htake, hdrop, List.append_nil]

theorem fraction_of_ends (h : Ends rest) : fraction rest = some ([], rest) := by
  cases rest with
  | nil => rfl
  | cons c rest =>
    rw [fraction]
    rintro _ heq
    exact (h c rfl).2.1 (List.cons.inj heq).1

theorem exponent_of_ends (h : Ends rest) : exponent rest = some ([], rest) := by
  cases rest with
  | nil => rfl
  | cons c rest =>
    rw [exponent]
    · rintro _ heq
      exact (h c rfl).2.2.1 (List.cons.inj heq).1
    · rintro _ heq
      exact (h c rfl).2.2.2 (List.cons.inj heq).1

theorem magnitude_toDigits (negative : Bool) (n : Nat) (hn : negative = true → n ≠ 0)
    (h : Ends rest) :
    magnitude negative (Nat.toDigits 10 n ++ rest) =
      some (.int (if negative then -(n : Int) else n), rest) := by
  have hdigits : digits (Nat.toDigits 10 n ++ rest) = (Nat.toDigits 10 n, rest) :=
    digits_append (fun _ => Nat.isDigit_of_mem_toDigits (by decide) (by decide)) h
  obtain ⟨d, ds, hds, hd, hzero⟩ := Text.head_toDigits n
  have hnonzero : (negative && n == 0) = false := by
    cases negative with
    | false => rfl
    | true => simpa using hn rfl
  unfold magnitude
  rw [hdigits]
  split
  · rename_i heq
    exact absurd (Prod.mk.inj heq).1 Nat.toDigits_ne_nil
  · -- only zero starts with a zero, and it has no further digit
    rename_i heq
    have hhead := (Prod.mk.inj heq).1
    rw [hds] at hhead
    have hfirst : d = 0 := by
      have hdigit : ∀ d : Fin 10, Nat.digitChar d = '0' → d.val = 0 := by decide
      exact hdigit ⟨d, hd⟩ (List.cons.inj hhead).1
    rw [(hzero hfirst).2] at hhead
    exact absurd (List.cons.inj hhead).2 (List.cons_ne_nil _ _).symm
  · rename_i heq
    obtain ⟨rfl, rfl⟩ := Prod.mk.inj heq
    simp [fraction_of_ends h, exponent_of_ends h, hnonzero]

theorem number_intChars (n : Int) (h : Ends rest) :
    number (intChars n ++ rest) = some (.int n, rest) := by
  cases n with
  | ofNat n =>
    have hnumber : number (Nat.toDigits 10 n ++ rest) =
        magnitude false (Nat.toDigits 10 n ++ rest) := by
      obtain ⟨d, ds, hds, hd, -⟩ := Text.head_toDigits n
      have hne : Nat.digitChar d ≠ '-' := by
        have hdigit : ∀ d : Fin 10, Nat.digitChar d ≠ '-' := by decide
        exact hdigit ⟨d, hd⟩
      rw [hds, List.cons_append, number]
      rintro _ heq
      exact hne (List.cons.inj heq).1
    rw [intChars, hnumber, magnitude_toDigits false n nofun h]
    rfl
  | negSucc n =>
    rw [intChars, List.cons_append, number, magnitude_toDigits true (n + 1) (by simp) h]
    rfl

/-! ### Blanks -/

theorem skip_append {blanks : List Char} (h : ∀ c ∈ blanks, isBlank c = true) (cs : List Char) :
    skip (blanks ++ cs) = skip cs := List.dropWhile_append_of_pos h

theorem skip_lineBreak (level : Nat) (cs : List Char) : skip (lineBreak level ++ cs) = skip cs := by
  refine skip_append (fun c hc => ?_) cs
  rcases List.mem_cons.1 hc with rfl | hc
  · decide
  · rw [(List.mem_replicate.1 hc).2]
    decide

theorem skip_cons (h : isBlank c = false) (cs : List Char) : skip (c :: cs) = c :: cs := by
  simp [skip, h]

theorem skip_skip (cs : List Char) : skip (skip cs) = skip cs := List.dropWhile_idempotent _ _

theorem value_lineBreak (fuel level : Nat) (cs : List Char) :
    value fuel (lineBreak level ++ cs) = value fuel cs := by
  cases fuel <;> simp only [value, skip_lineBreak]

theorem items_lineBreak (fuel level : Nat) (cs : List Char) :
    items fuel (lineBreak level ++ cs) = items fuel cs := by
  cases fuel <;> simp only [items, skip_lineBreak]

theorem member_lineBreak (fuel level : Nat) (cs : List Char) :
    member fuel (lineBreak level ++ cs) = member fuel cs := by
  cases fuel <;> simp only [member, skip_lineBreak]

theorem members_lineBreak (fuel level : Nat) (cs : List Char) :
    members fuel (lineBreak level ++ cs) = members fuel cs := by
  cases fuel <;> simp only [members, skip_lineBreak]

theorem ends_cons (h : c ∈ ['\n', ','] ) (rest : List Char) : Ends (c :: rest) := by
  rintro _ ⟨⟩
  simp only [List.mem_cons, List.not_mem_nil, or_false] at h
  rcases h with rfl | rfl <;> decide

theorem ends_items (level : Nat) (js : List Json) (outer : Nat) (rest : List Char) :
    Ends (prettyItems level js ++ (lineBreak outer ++ rest)) := by
  cases js with
  | nil => exact ends_cons (by decide) _
  | cons j js => exact ends_cons (by decide) _

theorem ends_members (level : Nat) (ms : List (Option String × Json)) (outer : Nat)
    (rest : List Char) : Ends (prettyMembers level ms ++ (lineBreak outer ++ rest)) := by
  cases ms with
  | nil => exact ends_cons (by decide) _
  | cons m ms => exact ends_cons (by decide) _

/-! ### Values -/

theorem value_text (fuel : Nat) (s : String) (rest : List Char) :
    value (fuel + 1) (textChars (some s) ++ rest) = some (.str (some s), rest) := by
  have hskip : skip (textChars (some s) ++ rest) =
      '"' :: (s.toList.flatMap escape ++ '"' :: rest) := by
    simp [textChars, quote, skip_cons (show isBlank '"' = false by decide)]
  rw [value, hskip]
  simp [string_quote]

theorem value_number (hc : c.isDigit = true ∨ c = '-') (fuel : Nat) (cs : List Char) :
    value (fuel + 1) (c :: cs) = number (c :: cs) := by
  have hblank : isBlank c = false := by
    rw [isBlank, Bool.or_eq_false_iff, Bool.or_eq_false_iff, Bool.or_eq_false_iff]
    refine ⟨⟨⟨?_, ?_⟩, ?_⟩, ?_⟩
    all_goals
      rw [beq_eq_false_iff_ne]
      rintro rfl
      exact absurd hc (by decide)
  rw [value, skip_cons hblank]
  -- no other value starts with a digit or a sign
  split
  all_goals first
    | rfl
    | (rename_i heq
       rw [(List.cons.inj heq).1] at hc
       exact absurd hc (by decide))

theorem value_int (fuel : Nat) (n : Int) (h : Ends rest) :
    value (fuel + 1) (intChars n ++ rest) = some (.int n, rest) := by
  rw [← number_intChars n h]
  cases n with
  | ofNat n =>
    obtain ⟨d, ds, hds, hd, -⟩ := Text.head_toDigits n
    have hdigit : (Nat.digitChar d).isDigit = true :=
      Nat.isDigit_of_mem_toDigits (by decide) (by decide) (hds ▸ List.mem_cons_self)
    rw [intChars, hds]
    exact value_number (.inl hdigit) fuel _
  | negSucc n => exact value_number (.inr rfl) fuel _

/-- No value starts with a bracket or a brace that closes one. -/
theorem value_of_close {close : Char} (h : close = ']' ∨ close = '}') (fuel : Nat)
    {cs tail : List Char} (hskip : skip cs = close :: tail) : value fuel cs = none := by
  cases fuel with
  | zero => rfl
  | succ fuel =>
    rw [value, hskip]
    rcases h with rfl | rfl <;> rfl

theorem value_arr {js : List Json} (hj : value fuel cs = some (j, rest))
    (hjs : items fuel rest = some (js, rest')) :
    value (fuel + 1) ('[' :: cs) = some (.arr (j :: js), rest') := by
  have hskip : value fuel (skip cs) = some (j, rest) := by
    cases fuel with
    | zero => exact hj
    | succ fuel => simpa only [value, skip_skip] using hj
  simp only [value, skip_cons (show isBlank '[' = false by decide)]
  split
  · rename_i heq
    rw [value_of_close (.inl rfl) _ heq] at hj
    cases hj
  · simp [hskip, hjs]

theorem value_obj {m : Option String × Json} {ms : List (Option String × Json)}
    (hm : member fuel cs = some (m, rest)) (hms : members fuel rest = some (ms, rest')) :
    value (fuel + 1) ('{' :: cs) = some (.obj (m :: ms), rest') := by
  have hskip : member fuel (skip cs) = some (m, rest) := by
    cases fuel with
    | zero => exact hm
    | succ fuel => simpa only [member, skip_skip] using hm
  simp only [value, skip_cons (show isBlank '{' = false by decide)]
  split
  · rename_i heq
    cases fuel with
    | zero => cases hm
    | succ fuel => simp [member, heq] at hm
  · simp [hskip, hms]

theorem items_cons {js : List Json} (hj : value fuel cs = some (j, rest))
    (hjs : items fuel rest = some (js, rest')) :
    items (fuel + 1) (',' :: cs) = some (j :: js, rest') := by
  simp [items, skip_cons (show isBlank ',' = false by decide), hj, hjs]

theorem members_cons {m : Option String × Json} {ms : List (Option String × Json)}
    (hm : member fuel cs = some (m, rest)) (hms : members fuel rest = some (ms, rest')) :
    members (fuel + 1) (',' :: cs) = some (m :: ms, rest') := by
  simp [members, skip_cons (show isBlank ',' = false by decide), hm, hms]

theorem items_close (fuel level : Nat) (rest : List Char) :
    items (fuel + 1) (lineBreak level ++ ']' :: rest) = some ([], rest) := by
  rw [items_lineBreak]
  simp [items, skip_cons (show isBlank ']' = false by decide)]

theorem members_close (fuel level : Nat) (rest : List Char) :
    members (fuel + 1) (lineBreak level ++ '}' :: rest) = some ([], rest) := by
  rw [members_lineBreak]
  simp [members, skip_cons (show isBlank '}' = false by decide)]

theorem member_text (key : String) (hj : value fuel cs = some (j, rest)) :
    member (fuel + 1) (textChars (some key) ++ ':' :: ' ' :: cs) = some ((some key, j), rest) := by
  have hblank : value fuel (' ' :: cs) = some (j, rest) := by
    cases fuel with
    | zero => exact hj
    | succ fuel => rwa [value, show skip (' ' :: cs) = skip cs from rfl, ← value]
  have hskip : skip (textChars (some key) ++ ':' :: ' ' :: cs) =
      '"' :: (key.toList.flatMap escape ++ '"' :: ':' :: ' ' :: cs) := by
    simp [textChars, quote, skip_cons (show isBlank '"' = false by decide)]
  simp [member, hskip, string_quote, skip_cons (show isBlank ':' = false by decide), hblank]

mutual

theorem value_pretty : ∀ (j : Json), Plain j → ∀ (level fuel : Nat) (rest : List Char), Ends rest →
    (prettyChars level j).length < fuel → value fuel (prettyChars level j ++ rest) = some (j, rest)
  | .null, _, level, fuel + 1, rest, _, _ => by
    simp [prettyChars, value, skip_cons (show isBlank 'n' = false by decide)]
  | .bool true, _, level, fuel + 1, rest, _, _ => by
    simp [prettyChars, value, skip_cons (show isBlank 't' = false by decide)]
  | .bool false, _, level, fuel + 1, rest, _, _ => by
    simp [prettyChars, value, skip_cons (show isBlank 'f' = false by decide)]
  | .int n, _, level, fuel + 1, rest, hrest, _ => value_int fuel n hrest
  | .str (some s), _, level, fuel + 1, rest, _, _ => value_text fuel s rest
  | .arr [], _, level, fuel + 1, rest, _, _ => by
    simp [prettyChars, value, skip_cons (show isBlank '[' = false by decide),
      skip_cons (show isBlank ']' = false by decide)]
  | .arr (j :: js), hplain, level, fuel + 1, rest, _, hfuel => by
    simp only [prettyChars, List.length_cons, List.length_append] at hfuel
    simp only [prettyChars, List.cons_append, List.append_assoc, List.nil_append]
    refine value_arr ?_ (items_pretty js hplain.2 (level + 1) level fuel rest (by omega))
    rw [value_lineBreak]
    exact value_pretty j hplain.1 (level + 1) fuel _ (ends_items _ _ _ _) (by omega)
  | .obj [], _, level, fuel + 1, rest, _, _ => by
    simp [prettyChars, value, skip_cons (show isBlank '{' = false by decide),
      skip_cons (show isBlank '}' = false by decide)]
  | .obj ((some key, j) :: ms), hplain, level, fuel + 2, rest, _, hfuel => by
    simp only [prettyChars, List.length_cons, List.length_append] at hfuel
    simp only [prettyChars, List.cons_append, List.append_assoc, List.nil_append]
    refine value_obj ?_ (members_pretty ms hplain.2.2 (level + 1) level (fuel + 1) rest (by omega))
    rw [member_lineBreak]
    refine member_text key ?_
    exact value_pretty j hplain.2.1 (level + 1) fuel _ (ends_members _ _ _ _) (by omega)
  | .obj ((some key, j) :: ms), hplain, level, 1, rest, _, hfuel => by
    simp [prettyChars] at hfuel

theorem items_pretty : ∀ (js : List Json), PlainItems js → ∀ (level outer fuel : Nat)
    (rest : List Char), (prettyItems level js).length < fuel →
    items fuel (prettyItems level js ++ (lineBreak outer ++ ']' :: rest)) = some (js, rest)
  | [], _, level, outer, fuel + 1, rest, _ => items_close fuel outer rest
  | j :: js, hplain, level, outer, fuel + 1, rest, hfuel => by
    simp only [prettyItems, List.length_cons, List.length_append] at hfuel
    simp only [prettyItems, List.cons_append, List.append_assoc]
    refine items_cons ?_ (items_pretty js hplain.2 level outer fuel rest (by omega))
    rw [value_lineBreak]
    exact value_pretty j hplain.1 level fuel _ (ends_items _ _ _ _) (by omega)

theorem members_pretty : ∀ (ms : List (Option String × Json)), PlainMembers ms →
    ∀ (level outer fuel : Nat) (rest : List Char), (prettyMembers level ms).length < fuel →
    members fuel (prettyMembers level ms ++ (lineBreak outer ++ '}' :: rest)) = some (ms, rest)
  | [], _, level, outer, fuel + 1, rest, _ => members_close fuel outer rest
  | (some key, j) :: ms, hplain, level, outer, fuel + 2, rest, hfuel => by
    simp only [prettyMembers, List.length_cons, List.length_append] at hfuel
    simp only [prettyMembers, List.cons_append, List.append_assoc, List.nil_append]
    refine members_cons ?_ (members_pretty ms hplain.2.2 level outer (fuel + 1) rest (by omega))
    rw [member_lineBreak]
    refine member_text key ?_
    exact value_pretty j hplain.2.1 level fuel _ (ends_members _ _ _ _) (by omega)
  | (some key, j) :: ms, hplain, level, outer, 1, rest, hfuel => by
    simp [prettyMembers] at hfuel

end

end Reader

theorem parse?_pretty {j : Json} (h : Plain j) : parse? (pretty j) = some j := by
  have hread : Reader.value ((prettyChars 0 j).length + 1) (prettyChars 0 j) = some (j, []) := by
    simpa using Reader.value_pretty j h 0 _ [] nofun (Nat.lt_succ_self _)
  rw [parse?, pretty, String.length_ofList, String.toList_ofList, hread]
  rfl

end PacketC.Json
