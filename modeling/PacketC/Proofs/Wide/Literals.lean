import PacketC.Proofs.Wide.Leaves

/-! What literals and arrays of bytes denote. A literal is read as the target reads it: in the base
that its mark says, and behind a minus sign if there is one. The bytes of a number are read in
three ways: from pairs of hexadecimal digits, from an initializer in any base, and from the array
that a constant above 32 bits is declared as. All three are the same bytes, and those stand for the
number as far as it fits. -/

namespace PacketC

namespace Code

/-- The numbers between the braces of an initializer. -/
def initializer? (text : String) : Option (List Nat) :=
  match tokens text with
  | .one '\x7b' :: ts =>
    match readNumbers ts with
    | some (ns, []) => some ns
    | _ => none
  | _ => none

theorem initializer?_braced {texts : List String} {ns : List Nat}
    (h : List.Forall₂ Numeral texts ns) : initializer? (Literal.braced texts) = some ns := by
  have hread := readNumbers_eq h []
  rw [List.append_nil] at hread
  rw [initializer?, tokens_of_flat (isFlat_braced h), lex_braces h]
  simp only [hread]

theorem initializer?_byteArray (base : Nat) (n : Int) (len : Nat) :
    initializer? (Literal.byteArray base n len) = some ((Literal.bytes n len).map UInt8.toNat) :=
  initializer?_braced (numerals_map (numeral_inBase base ·.toNat) _)

end Code

open Code Lower

theorem bigEndian_bytes_eq (n : Int) (len : Nat) :
    bigEndian (Literal.bytes n len) = n.natAbs % 256 ^ len := bigEndian_littleEndian _ _

/-- The code declares an array with an initializer that lists the bytes, and is read as such a
declaration if the name is one of a supply in order. -/
structure DeclaresBytes (names : NameSupply) (code name : String) (size : Option Nat)
    (bytes : List UInt8) : Prop where
  listed : ∃ init, code = "uint8_t " ++ name ++ "[" ++ (size.map toString).getD "" ++ "] = " ++
    init ++ ";" ∧ initializer? init = some (bytes.map UInt8.toNat)
  read : names.Sound → items code = some [.array name size (some (bytes.map UInt8.toNat))]

variable {names : NameSupply}

theorem label_of_named {hint : String} (h : IsStem hint) (id : ExprId) (hs : names.Sound) :
    Label (names.named hint id.text).1 :=
  (identifier_of_derived h ((hs.named hint id.text).derived _ _ _ (names.lookup_named _ _))).label

theorem declaresBytes_of_texts {name : String} (sized : Bool) {texts : List String}
    {bytes : List UInt8} (hname : names.Sound → Label name)
    (h : List.Forall₂ Numeral texts (bytes.map UInt8.toNat)) :
    DeclaresBytes names ((Content.constant sized texts bytes).text name) name
      (if sized then some bytes.length else none) bytes where
  listed := by
    refine ⟨Literal.braced texts, ?_, initializer?_braced h⟩
    cases sized with
    | false =>
      have hopen : "[] = " = "[" ++ "" ++ "] = " := rfl
      show "uint8_t " ++ name ++ "[] = " ++ Literal.braced texts ++ ";" =
        "uint8_t " ++ name ++ "[" ++ "" ++ "] = " ++ Literal.braced texts ++ ";"
      rw [hopen]
      simp only [String.append_assoc]
    | true => rfl
  read hs := items_constant sized (hname hs) h

theorem declaresBytes_byteArray {name : String} (hname : names.Sound → Label name) (base : Nat)
    (value : Int) (len : Nat) :
    DeclaresBytes names s!"uint8_t {name}[{len}] = {Literal.byteArray base value len};" name
      (some len) (Literal.bytes value len) := by
  have hdeclares := declaresBytes_of_texts true hname
    (numerals_map (numeral_inBase base ·.toNat) (Literal.bytes value len))
  rw [Content.text, if_pos rfl, Literal.length_bytes] at hdeclares
  exact hdeclares

theorem constant_declares {e : Expr} {width : UInt32} {signed : Bool}
    (hty : e.ty = .bits width signed) (hw : 32 < width.toNat) (value : Int) (base : UInt32)
    (env : Env) (s : Lower.State) :
    ∃ name t code, constant e value base env s = (.ok name, t) ∧
      t.emission = s.emission.prepend code ∧
      DeclaresBytes s.memory.names code name none
        (Literal.bytes value (byteCount width.toNat)) := by
  let named := s.memory.names.named
    ("const_0x" ++ Literal.hexBytes value (byteCount width.toNat)) e.id.text
  have hrun : constant e value base env s = (.ok named.1, ⟨{ s.memory with names := named.2 },
      s.emission.prepend ((constantContent value width.toNat).text named.1)⟩) := by
    unfold constant
    rw [hty]
    dsimp only
    rw [if_pos hw]
    rfl
  exact ⟨_, _, _, hrun, rfl, declaresBytes_of_texts false
    (label_of_named (isStem_constant _ _) e.id) (plain_constantContent value width.toNat)⟩

/-! ### All together -/

end PacketC
