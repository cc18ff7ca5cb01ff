import PacketC.Proofs.Code.Chain
import PacketC.Proofs.Scalar.Nodes
import PacketC.Proofs.Wide.Leaves

/-! The cases of a transition. A key is a field of a header or of metadata, and a case has a pattern
for each key. The variable of a key is declared with the field; the test of a case holds exactly if
each of its patterns accepts the value of its key. -/

namespace PacketC

open Code Lower

/-! ### Keys and patterns -/

namespace Program

/-- A field that a transition looks at. -/
structure Key (p : Program) where
  id : ExprId
  width : UInt32
  field : p.FieldAt id (.bits width false)
  sized : 0 < width.toNat ∧ width.toNat ≤ 32 ∨ 32 < width.toNat ∧ 8 ∣ width.toNat

structure Const (p : Program) (w : UInt32) (i : ExprId) where
  value : BitVec w.toNat
  base : UInt32
  is : p.Is i (.bits w false) (.constant value.toNat base)

/-- What a case asks of a key. Masks and ranges are for keys that are scalars. -/
inductive Pattern (p : Program) (w : UInt32) (i : ExprId) : Type
  | any {ty : Ty} (h : p.Is i ty .default)
  | exactly (c : p.Const w i)
  | masked {ty : Ty} {j k : ExprId} (h : p.Is i ty (.mask j k)) (hw : w.toNat ≤ 32)
      (c : p.Const w j) (m : p.Const w k)
  | between {ty : Ty} {j k : ExprId} (h : p.Is i ty (.range j k)) (hw : w.toNat ≤ 32)
      (lo : p.Const w j) (hi : p.Const w k)

/-- A pattern for each key. -/
inductive Patterns (p : Program) : List p.Key → List ExprId → Type
  | nil : Patterns p [] []
  | cons {k : p.Key} {ks : List p.Key} {i : ExprId} {is : List ExprId} (x : p.Pattern k.width i)
      (xs : Patterns p ks is) : Patterns p (k :: ks) (i :: is)

/-- What a case asks of all keys. -/
inductive Keyset (p : Program) (keys : List p.Key) (i : ExprId) : Type
  | all {ty : Ty} (h : p.Is i ty .default)
  | single (xs : p.Patterns keys [i])
  | list {ty : Ty} {is : List ExprId} (h : p.Is i ty (.list is)) (xs : p.Patterns keys is)

structure Case (p : Program) (keys : List p.Key) where
  state : String
  id : ExprId
  keyset : p.Keyset keys id

/-- A transition of a parser. -/
structure Select (p : Program) (i : ExprId) where
  keys : List p.Key
  cases : List (p.Case keys)
  ty : Ty
  is : p.Is i ty (.select (keys.map Key.id) (cases.map fun c => ⟨c.id, c.state⟩))

variable {p : Program}

def Pattern.accepts {w : UInt32} {i : ExprId} (n : Nat) : p.Pattern w i → Bool
  | .any _ => true
  | .exactly c => n == c.value.toNat
  | .masked _ _ c m => n &&& m.value.toNat == c.value.toNat &&& m.value.toNat
  | .between _ _ lo hi => decide (lo.value.toNat ≤ n) && decide (n ≤ hi.value.toNat)

def Patterns.accepts : {ks : List p.Key} → {is : List ExprId} → p.Patterns ks is → List Nat → Bool
  | _, _, .nil, _ => true
  | _, _, .cons x xs, n :: ns => x.accepts n && xs.accepts ns
  | _, _, .cons _ _, [] => false

def Case.accepts {keys : List p.Key} (vs : List Nat) (c : p.Case keys) : Bool :=
  match c.keyset with
  | .all _ => true
  | .single xs | .list _ xs => xs.accepts vs

/-- The state of the first case that accepts the values of the keys. -/
def Select.target {i : ExprId} (t : p.Select i) (vs : List Nat) : Option String :=
  (t.cases.find? (Case.accepts vs)).map Case.state

namespace Key

theorem dvd_of_wide {k : p.Key} (h : 32 < k.width.toNat) : 8 ∣ k.width.toNat := by
  rcases k.sized with hk | hk
  · omega
  · exact hk.2

def place (k : p.Key) : PacketField := k.field.place

def isNarrow (k : p.Key) : Bool := decide (k.width.toNat ≤ 32)

/-- The value of the key is the number: as a number if the key is a scalar, and else as bytes. -/
def Reads (rt : Runtime) (k : p.Key) (n : Nat) : Prop :=
  n < 2 ^ k.width.toNat ∧ if k.isNarrow then
    rt.number k.place.headerId k.place.fieldId = some (n : Int)
  else Encodes (rt.bytes k.place.headerId k.place.fieldId) (k.width.toNat / 8) n

end Key

end Program

/-! ### Declarations -/

section Declarations

open Program

variable {p : Program} {w : UInt32} {i : ExprId}

/-- What the variable of a field is declared with. -/
def fieldContent (w : UInt32) (l : PacketField) : Content :=
  if w.toNat ≤ 32 then .value w.toNat l else .field (w.toNat / 8) l

def Program.Key.content (k : p.Key) : Content := fieldContent k.width k.place

/-- What a constant is compared with byte by byte. -/
def bytesContent (w : UInt32) (value : Nat) (base : UInt32) : Content :=
  .constant true
    ((Literal.bytes value (w.toNat / 8)).map fun b => Literal.inBase base.toNat b.toNat)
    (Literal.bytes value (w.toNat / 8))

def Program.Const.content (c : p.Const w i) : Content := bytesContent w c.value.toNat c.base

variable {n : Nat} {k : p.Key} {rt : Runtime}

theorem pow_bytes (h : 8 ∣ n) : 256 ^ (n / 8) = 2 ^ n := by
  rw [show (256 : Nat) = 2 ^ 8 from rfl, ← Nat.pow_mul, Nat.mul_div_cancel' h]

theorem plain_bytesContent (w : UInt32) (value : Nat) (base : UInt32) :
    (bytesContent w value base).Plain := numerals_map (numeral_inBase base.toNat ·.toNat) _

theorem slot_bytesContent (rt : Runtime) (value : Nat) (base : UInt32) :
    (bytesContent w value base).slot rt =
      some (.bytes (Literal.bytes value (w.toNat / 8))) := rfl

theorem Program.Key.plain_content (hh : Label k.place.headerId) (hf : Label k.place.fieldId) :
    k.content.Plain := by
  unfold Key.content fieldContent
  split
  · exact ⟨‹_›, hh, hf⟩
  · exact ⟨hh, hf⟩

/-- The variable of a key that is a scalar holds its value. -/
theorem Program.Key.slot_narrow (hk : k.width.toNat ≤ 32) (h : k.Reads rt n) :
    k.content.slot rt = some (.scalar n) := by
  obtain ⟨hlt, hread⟩ := h
  obtain ⟨bits, hbits, hle, -⟩ := bitsText_scalar hk false
  have hlt' : n < 2 ^ bits := Nat.lt_of_lt_of_le hlt (Nat.pow_le_pow_right (by decide) hle)
  have hwrap : (Content.scalarType k.width.toNat).wrap n = n := by
    rw [Content.scalarType, hbits]
    show (n : Int) % 2 ^ bits = n
    exact Int.emod_eq_of_lt (Int.natCast_nonneg _) (by exact_mod_cast hlt')
  rw [isNarrow, decide_eq_true hk, if_pos rfl] at hread
  rw [content, fieldContent, if_pos hk]
  simp [Content.slot, hread, hwrap]

theorem Program.Key.slot_wide (hk : 32 < k.width.toNat) (h : k.Reads rt n) :
    ∃ bs, k.content.slot rt = some (.bytes bs) ∧
      bs.length = k.width.toNat / 8 ∧ bigEndian bs = n := by
  obtain ⟨-, hread⟩ := h
  rw [isNarrow, decide_eq_false (Nat.not_le.2 hk), if_neg (by decide)] at hread
  obtain ⟨bs, hbs, hlen, hvalue⟩ := hread
  refine ⟨bs, ?_, hlen, hvalue⟩
  rw [content, fieldContent, if_neg (Nat.not_le.2 hk)]
  simp [Content.slot, hbs, hlen]

theorem Program.Key.exists_slot (h : k.Reads rt n) : ∃ slot, k.content.slot rt = some slot := by
  rcases Nat.lt_or_ge 32 k.width.toNat with hk | hk
  · obtain ⟨bs, hbs, -⟩ := slot_wide hk h
    exact ⟨_, hbs⟩
  · exact ⟨_, slot_narrow hk h⟩

/-- What belongs to the name of an expression: a field, or a constant that is compared. -/
def ValueOf (p : Program) (key : String × String) (c : Content) : Prop :=
  ∃ (id : ExprId) (w : UInt32), key.2 = id.text ∧
    ((∃ f : p.FieldAt id (.bits w false), c = fieldContent w f.place) ∨
      ∃ c' : p.Const w id, c = c'.content)

theorem Program.FieldAt.place_unique {v : UInt32} (f : p.FieldAt i (.bits w false))
    (g : p.FieldAt i (.bits v false)) : w = v ∧ f.place = g.place := by
  obtain ⟨id, hf⟩ := f.isMember
  obtain ⟨id', hg⟩ := g.isMember
  have he := Except.ok.inj (hf.symm.trans hg)
  injection he with _ hty hnode
  injection hty with hw
  injection hnode with hmember
  have href := f.refers
  rw [hmember, g.refers] at href
  have hplace := f.located
  rw [← Option.some.inj href, g.located] at hplace
  exact ⟨hw, (Except.ok.inj hplace).symm⟩

theorem ValueOf.unique {key : String × String} {c d : Content} (hc : ValueOf p key c)
    (hd : ValueOf p key d) : c = d := by
  obtain ⟨id, w, hid, hc⟩ := hc
  obtain ⟨id', v, hid', hd⟩ := hd
  obtain rfl := Handle.text_injective (hid.symm.trans hid')
  rcases hc with ⟨f, rfl⟩ | ⟨⟨x, base, a, ha⟩, rfl⟩ <;>
    rcases hd with ⟨g, rfl⟩ | ⟨⟨y, base', b, hb⟩, rfl⟩
  · obtain ⟨rfl, hplace⟩ := f.place_unique g
    rw [hplace]
  · obtain ⟨a, ha⟩ := f.isMember
    cases ha.symm.trans hb
  · obtain ⟨b, hb⟩ := g.isMember
    cases ha.symm.trans hb
  · have he := Except.ok.inj (ha.symm.trans hb)
    injection he with _ hty hnode
    injection hty with hw
    injection hnode with hvalue hbase
    subst hw hbase
    obtain rfl := BitVec.eq_of_toNat_eq (Int.ofNat.inj hvalue)
    rfl

/-- What is declared is a key or a constant, under a name of its own. -/
def selectPlan (keys : List p.Key)
    (h : ∀ k ∈ keys, Label k.place.headerId ∧ Label k.place.fieldId) : Plan where
  allowed k := (∃ id : ExprId, NameSupply.Derived "value" id.text k.name) ∧
    ((∃ key ∈ keys, k.content = key.content) ∨
      ∃ (w : UInt32) (value : Nat) (base : UInt32), 32 < w.toNat ∧
        k.content = bytesContent w value base)
  assigned := ValueOf p
  plain k hk := by
    rcases hk.2 with ⟨key, hkey, heq⟩ | ⟨w, value, base, hw, heq⟩
    · rw [heq]
      exact key.plain_content (h key hkey).1 (h key hkey).2
    · rw [heq]
      exact plain_bytesContent w value base
  identifier k hk := by
    obtain ⟨⟨id, hid⟩, -⟩ := hk
    exact identifier_of_derived isStem_value hid
  unique := ValueOf.unique

end Declarations

/-! ### Lowering keys -/

section Keys

open Program

variable {env : Env} {name : String} {loud : Bool}

theorem bind_eq_of_forall {α β : Type} {x : LowerM α} {f g : α → LowerM β}
    (h : ∀ a, f a env = g a env) : (x >>= f) env = (x >>= g) env := by
  show (x env >>= fun a => f a env) = _
  simp only [h]
  rfl

theorem bind_eq_of_eq {α β : Type} {x y : LowerM α} (h : x env = y env) (f : α → LowerM β) :
    (x >>= f) env = (y >>= f) env := by
  show (x env >>= fun a => f a env) = _
  rw [h]
  rfl

/-- A key is declared with its content, and nothing else happens. -/
theorem declareKey_eq (wf : env.program.WellFormed) (k : env.program.Key) :
    declareKey Lower.expr k.id name env = hoist (k.content.text name) env := by
  obtain ⟨id, he⟩ := k.field.isMember
  unfold declareKey
  rw [bind_of_pure (look_of_ok he)]
  show (if k.width.toNat ≤ 32 then _ else _ : LowerM Unit) env = _
  rw [Key.content, fieldContent]
  split
  · rw [bind_of_pure ((Gives.typeText _ _) env rfl rfl),
      bind_of_pure (k.field.gives wf ‹_› env rfl rfl)]
    rfl
  · have hmod : k.width.toNat % 8 = 0 :=
      Nat.mod_eq_zero_of_dvd (Key.dvd_of_wide (Nat.not_le.1 ‹_›))
    have href : Expr.fieldRef? ⟨id, .bits k.width false, .member k.field.member⟩ =
        some k.field.ref := k.field.refers
    rw [if_pos hmod, href]
    show (look _ >>= _ : LowerM Unit) env = _
    rw [bind_of_pure (look_of_ok k.field.located)]
    rfl

/-- Each key has a variable that is declared with its content. -/
def Declared (hs : List Hoisted) (k : env.program.Key) (name : String) : Prop :=
  Identifier name ∧ ⟨name, k.content⟩ ∈ hs

theorem lays_keyNames (wf : env.program.WellFormed) {keys : List env.program.Key}
    (hlabels : ∀ k ∈ keys, Label k.place.headerId ∧ Label k.place.fieldId)
    {ks : List env.program.Key} (hks : ks ⊆ keys) :
    Lays (selectPlan keys hlabels).ledger env loud (keyNames Lower.expr true (ks.map Key.id))
      fun names hs => List.Forall₂ (Declared hs) ks names := by
  induction ks with
  | nil => exact .pure fun _ => .nil
  | cons k ks ih =>
    have hk : k ∈ keys := hks (.head _)
    rw [List.map_cons, keyNames]
    have hok : ∀ x, NameSupply.Derived "value" k.id.text x →
        (selectPlan keys hlabels).allowed ⟨x, k.content⟩ := fun x hx =>
      ⟨⟨k.id, hx⟩, .inl ⟨k, hk, rfl⟩⟩
    have hkey : (selectPlan keys hlabels).assigned ("value", k.id.text) k.content :=
      ⟨k.id, k.width, rfl, .inl ⟨k.field, rfl⟩⟩
    refine .inEnv (bind_eq_of_forall fun name => bind_eq_of_eq (declareKey_eq wf k) _) ?_
    exact .named hok hkey fun name => .bind (ih fun _ h => hks (.tail _ h)) fun names =>
      .pure fun _ hnames hname hmem => .cons ⟨hname, hmem⟩ hnames

end Keys

/-! ### Tests -/

section Tests

variable {σ : Store} {P Q : Prop}

/-- The texts are tests that hold altogether exactly if the statement does. -/
def Tested (σ : Store) (texts : List String) (P : Prop) : Prop :=
  ∃ Ps, List.Forall₂ (fun text Q => isFlat text = true ∧ Says 3 σ text Q) texts Ps ∧
    ((∀ Q ∈ Ps, Q) ↔ P)

theorem Tested.nil (h : P) : Tested σ [] P := ⟨[], .nil, iff_of_true nofun h⟩

theorem Tested.single {text : String} (hflat : isFlat text = true) (h : Says 3 σ text P) :
    Tested σ [text] P :=
  ⟨[P], .cons ⟨hflat, h⟩ .nil, fun h => h P (.head _), fun h _ hQ => List.mem_singleton.1 hQ ▸ h⟩

theorem Tested.append {as bs : List String} (ha : Tested σ as P) (hb : Tested σ bs Q) :
    Tested σ (as ++ bs) (P ∧ Q) := by
  obtain ⟨Ps, hPs, hP⟩ := ha
  obtain ⟨Qs, hQs, hQ⟩ := hb
  refine ⟨Ps ++ Qs, List.rel_append hPs hQs, ?_⟩
  rw [List.forall_mem_append, hP, hQ]

/-- A comparison of two operands. -/
theorem says_apply {op : Op} {sym l r : String} {a b : Term} {x y : Int} [Decidable Q]
    (hsym : Symbol sym [op.token]) (hprec : 3 ≤ op.prec) (hl : Operand l a) (hr : Operand r b)
    (ha : a.eval σ = some x) (hb : b.eval σ = some y) (h : op.apply x y = some (truth Q))
    (hP : Q ↔ P) : Says 3 σ (l ++ sym ++ r) P := by
  have hle := op.prec_le.2
  refine ⟨_, (Clause.apply hsym (hl.clause (by omega)) (hr.clause (by omega))).mono hprec, ?_⟩
  rw [← hP]
  exact .of_truth ((Term.eval_binary ha hb).trans h)

/-- Tests that are joined are the test of a branch. -/
theorem Tested.guards {groups : List (List String)} (hne : ∀ g ∈ groups, g ≠ [])
    (h : Tested σ groups.flatten P) :
    Guards σ (if (groups.map (String.intercalate " && ")).isEmpty then "true /* default */"
      else String.intercalate " && " (groups.map (String.intercalate " && "))) P := by
  obtain ⟨Ps, hPs, hP⟩ := h
  rw [intercalate_flatten _ hne]
  cases groups with
  | nil =>
    cases hPs
    exact guards_default (hP.1 nofun)
  | cons g groups =>
    have hand : isFlat " && " = true := by simp [isFlat]
    have hsome : (g :: groups).flatten ≠ [] := by simp [hne g (.head _)]
    rw [List.map_cons, List.isEmpty_cons, if_neg (by decide)]
    generalize (g :: groups).flatten = texts at hPs hsome
    obtain ⟨hflat, htests⟩ := (List.forall₂_and_left _ _).1 hPs
    cases htests with
    | nil => exact absurd rfl hsome
    | cons hx hs =>
      obtain ⟨e, hclause, htest⟩ := hx
      have hall := says_conjunction ⟨e, hclause.mono (by decide), htest⟩ hs
      rw [← List.forall_mem_cons (p := fun Q => Q), hP] at hall
      exact hall.guards (isFlat_intercalate hand hflat)

end Tests

/-! ### Lowering patterns -/

section Patterns

open Program

variable {env : Env} {loud : Bool} {keys : List env.program.Key} {k : env.program.Key} {i : ExprId}
  {w : UInt32} {name : String} {hs : List Hoisted}

theorem const_gives (wf : env.program.WellFormed) (hpos : 0 < w.toNat) (hle : w.toNat ≤ 32)
    (c : env.program.Const w i) :
    ∃ text e, Gives env.program env.block (Lower.expr i .value) text ∧ isFlat text = true ∧
      Operand text e ∧ ∀ σ : Store, e.eval σ = some (c.value.toNat : Int) := by
  obtain ⟨id, he⟩ := c.is
  let width : Width := ⟨w, hpos, hle⟩
  obtain ⟨e, hop, heval⟩ := operand_constant (w := width) c.value c.base.toNat
  refine ⟨_, e, .expr wf he (constant_gives width false c.value.toNat c.base id _), ?_, hop, heval⟩
  obtain ⟨bits, -, -, htype⟩ := bitsText_scalar hle false
  have hword := isWord_of_ofName? htype
  show isFlat ("(" ++ Ty.bitsText .parameter w.toNat false ++ ")" ++ _) = true
  simp +decide [isFlat_of_word hword.chars, isFlat_of_word (numeral_inBase _ _).chars]

/-- The variable of a key that is a scalar, as an operand. -/
theorem Declared.eval_eq (h : Declared hs k name) (hk : k.width.toNat ≤ 32) {rt : Runtime}
    {m : Machine} {n : Nat} (hm : Hoisted.Holds rt hs m) (hn : k.Reads rt n) :
    (Term.name name).eval (m.store rt) = some (n : Int) := by
  rw [h.1.eval_name, store_of_holds hm h.2 (k.slot_narrow hk hn)]

/-- The tests of a key hold where the pattern accepts its value. -/
def Program.Pattern.Written (x : env.program.Pattern k.width i) (name : String)
    (group : List String) (hs : List Hoisted) : Prop :=
  Declared hs k name → ∀ rt m n, Hoisted.Holds rt hs m → k.Reads rt n →
    Tested (m.store rt) group (x.accepts n = true)

theorem keyCondition_eq {recur : Recur} (k : env.program.Key) {c : Expr}
    (hc : env.At i c) (hnode : c.node ≠ .default) :
    keyCondition recur k.id name i env = ((if 32 < k.width.toNat then
        wideCondition (.bits k.width false) k.width.toNat name c
      else narrowCondition recur (.bits k.width false) name i c) >>= fun text =>
        return some text : LowerM (Option String)) env := by
  obtain ⟨id, he⟩ := k.field.isMember
  unfold keyCondition
  rw [bind_of_pure (look_of_ok he), bind_of_pure (look_of_ok hc)]
  cases hn : c.node with
  | default => exact absurd hn hnode
  | _ =>
    show (if 32 < k.width.toNat then _ else _ : LowerM (Option String)) env = _
    split <;> rfl

theorem wideCondition_eq {ty ty' : Ty} {id : ExprId} (hw : 8 ∣ w.toNat) (value : Nat)
    (base : UInt32) : wideCondition ty w.toNat name ⟨id, ty', .constant value base⟩ =
      nameOf "value" id >>= fun x => hoist ((bytesContent w value base).text x) >>= fun _ =>
        return s!"memcmp({name}, {x}, {w.toNat / 8})" ++ " == " ++ "0" := by
  have hdeclare : ∀ x, (bytesContent w value base).text x =
      s!"uint8_t {x}[{w.toNat / 8}] = {Literal.byteArray base.toNat value (w.toNat / 8)};" := by
    intro x
    show "uint8_t " ++ x ++ "[" ++ toString (Literal.bytes value (w.toNat / 8)).length ++ "] = " ++
      Literal.byteArray base.toNat value (w.toNat / 8) ++ ";" = _
    rw [Literal.length_bytes]
    rfl
  have htest : ∀ x : String, s!"memcmp({name}, {x}, {w.toNat / 8}) == 0" =
      s!"memcmp({name}, {x}, {w.toNat / 8})" ++ " == " ++ "0" := by simp [← String.toList_inj]
  unfold wideCondition
  rw [Nat.mod_eq_zero_of_dvd hw]
  simp only [hdeclare, htest]

/-- The bytes of a key are compared with those of a constant. -/
theorem Program.Const.written (c : env.program.Const k.width i) (hw : 32 < k.width.toNat)
    {x : String} (hx : Identifier x) (hmem : ⟨x, c.content⟩ ∈ hs) : (Pattern.exactly c).Written name
      [s!"memcmp({name}, {x}, {k.width.toNat / 8})" ++ " == " ++ "0"] hs := by
  intro hname rt m n hm hn
  have hcall := operand_memcmp hname.1.label.operand hx.label.operand (k.width.toNat / 8)
  have hdvd := Key.dvd_of_wide hw
  obtain ⟨bs, hbs, hlen, hvalue⟩ := k.slot_wide hw hn
  have hkey : Encodes (m.buffer rt (.name name)) (k.width.toNat / 8) n :=
    ⟨bs, buffer_of_holds hm hname.2 hbs, hlen, hvalue⟩
  have hlt : c.value.toNat < 256 ^ (k.width.toNat / 8) := by
    rw [pow_bytes hdvd]
    exact c.value.isLt
  have hconst : Encodes (m.buffer rt (.name x)) (k.width.toNat / 8) c.value.toNat :=
    ⟨_, buffer_of_holds hm hmem (slot_bytesContent rt _ _), Literal.length_bytes _ _,
      bigEndian_bytes hlt⟩
  obtain ⟨v, hv, hzero⟩ := eval_memcmp hkey hconst
  have hequ : Symbol " == " [Op.eq.token] := by decide
  refine .single ?_ (says_apply hequ (by decide) hcall (operand_decimal 0) hv rfl rfl ?_)
  · simp +decide [isFlat_of_word hname.1.chars, isFlat_of_word hx.chars]
  · exact hzero.trans beq_iff_eq.symm

/-- A key that is a scalar is compared with a constant. -/
theorem Declared.says_eq (h : Declared hs k name) (hk : k.width.toNat ≤ 32) {rt : Runtime}
    {m : Machine} {n : Nat} (hm : Hoisted.Holds rt hs m) (hn : k.Reads rt n) {text : String}
    {e : Term} {c : Nat} (hop : Operand text e) (he : e.eval (m.store rt) = some (c : Int)) :
    Says 3 (m.store rt) (name ++ " == " ++ text) (n = c) ∧
      Says 3 (m.store rt) (text ++ " <= " ++ name) (c ≤ n) ∧
      Says 3 (m.store rt) (name ++ " <= " ++ text) (n ≤ c) := by
  have hequ : Symbol " == " [Op.eq.token] := by decide
  have hle : Symbol " <= " [Op.le.token] := by decide
  have hkey := h.eval_eq hk hm hn
  have hname := h.1.label.operand
  exact ⟨says_apply hequ (by decide) hname hop hkey he rfl Int.natCast_inj,
    says_apply hle (by decide) hop hname he hkey rfl Int.ofNat_le,
    says_apply hle (by decide) hname hop hkey he rfl Int.ofNat_le⟩

/-- The test of a key that is a scalar needs no declaration of its own. -/
theorem lays_narrow {plan : Plan} {x : env.program.Pattern k.width i} {c : Expr}
    (group : List String) (hc : env.At i c) (hnode : c.node ≠ .default)
    (hw : ¬ 32 < k.width.toNat) (hne : group ≠ [])
    (hg : Gives env.program env.block
      (narrowCondition Lower.expr (.bits k.width false) name i c) (String.intercalate " && " group))
    (h : ∀ hs, x.Written name group hs) :
    Lays plan.ledger env loud (keyCondition Lower.expr k.id name i) fun r hs =>
      ∃ groups : List (List String), r.toList = groups.map (String.intercalate " && ") ∧
        (∀ g ∈ groups, g ≠ []) ∧ x.Written name groups.flatten hs := by
  refine .inEnv (keyCondition_eq k hc hnode) ?_
  rw [if_neg hw]
  refine .bind (.gives hg rfl rfl) fun text => .pure ?_
  rintro hs rfl
  exact ⟨[group], by simp, by simpa using hne, by simpa using h hs⟩

/-- The test of a pattern: one text, or two of them with `&&` in between, or none. -/
theorem lays_keyCondition (wf : env.program.WellFormed)
    (hlabels : ∀ k ∈ keys, Label k.place.headerId ∧ Label k.place.fieldId)
    (x : env.program.Pattern k.width i) :
    Lays (selectPlan keys hlabels).ledger env loud (keyCondition Lower.expr k.id name i) fun r hs =>
      ∃ groups : List (List String), r.toList = groups.map (String.intercalate " && ") ∧
        (∀ g ∈ groups, g ≠ []) ∧ x.Written name groups.flatten hs := by
  have hpos : 0 < k.width.toNat := by
    rcases k.sized with h | h <;> omega
  cases x with
  | any h =>
    obtain ⟨id, he⟩ := h
    obtain ⟨_, hk⟩ := k.field.isMember
    refine .known (look_of_ok hk) (.known (look_of_ok he) ?_)
    exact .pure fun hs => ⟨[], rfl, by simp, fun _ _ _ _ _ _ => .nil rfl⟩
  | exactly c =>
    obtain ⟨id, he⟩ := c.is
    by_cases hw : 32 < k.width.toNat
    · have hok : ∀ x, NameSupply.Derived "value" id.text x →
          (selectPlan keys hlabels).allowed ⟨x, c.content⟩ := fun x hx =>
        ⟨⟨id, hx⟩, .inr ⟨k.width, c.value.toNat, c.base, hw, rfl⟩⟩
      have hkey : (selectPlan keys hlabels).assigned ("value", id.text) c.content :=
        ⟨i, k.width, congrArg Handle.text (id_of_expr wf he), .inr ⟨c, rfl⟩⟩
      refine .inEnv (keyCondition_eq k he (by simp)) ?_
      rw [if_pos hw, wideCondition_eq (Key.dvd_of_wide hw)]
      simp only [bind_assoc, pure_bind]
      exact .named hok hkey fun x => .pure fun hs hx hmem =>
        ⟨[[_]], by simp, by simp, c.written hw hx hmem⟩
    · obtain ⟨text, e, hg, hflat, hop, heval⟩ := const_gives wf hpos (Nat.not_lt.1 hw) c
      refine lays_narrow [name ++ " == " ++ text] he (by simp) hw (by simp)
        (.bind hg (.pure _)) fun hs hname rt m n hm hn => .single ?_ ?_
      · simp +decide [hflat, isFlat_of_word hname.1.chars]
      · have htests := (hname.says_eq (Nat.not_lt.1 hw) hm hn hop (heval _)).1
        rwa [← beq_iff_eq] at htests
  | masked h hw c m =>
    obtain ⟨id, he⟩ := h
    obtain ⟨value, e, hg, hflat, hop, heval⟩ := const_gives wf hpos hw c
    obtain ⟨mask, e', hg', hflat', hop', heval'⟩ := const_gives wf hpos hw m
    refine lays_narrow ["(" ++ (value ++ " & " ++ mask) ++ ")" ++ " == " ++
        ("(" ++ (name ++ " & " ++ mask) ++ ")")] he (by simp) (Nat.not_lt.2 hw) (by simp) ?_
      fun hs hname rt machine n hm hn => .single ?_ ?_
    · refine .bind hg (.bind hg' ?_)
      have htext : s!"({value} & {mask}) == ({name} & {mask})" =
          "(" ++ (value ++ " & " ++ mask) ++ ")" ++ " == " ++
            ("(" ++ (name ++ " & " ++ mask) ++ ")") := by simp [← String.toList_inj]
      rw [String.intercalate_singleton, ← htext]
      exact .pure _
    · simp +decide [hflat, hflat', isFlat_of_word hname.1.chars]
    · have hand : Symbol " & " [Op.band.token] := by decide
      have hsym : Symbol " == " [Op.eq.token] := by decide
      have hleft := Clause.apply hand (hop.clause (by decide)) (hop'.clause (by decide))
      have hright := Clause.apply hand (hname.1.label.operand.clause (by decide))
        (hop'.clause (by decide))
      have hkey := hname.eval_eq hw hm hn
      refine says_apply hsym (by decide) hleft.paren hright.paren
        (Term.eval_binary (heval _) (heval' _)) (Term.eval_binary hkey (heval' _)) rfl ?_
      rw [eq_comm]
      show ((n &&& m.value.toNat : Nat) : Int) = (c.value.toNat &&& m.value.toNat : Nat) ↔ _
      exact Int.natCast_inj.trans beq_iff_eq.symm
  | between h hw lo hi =>
    obtain ⟨id, he⟩ := h
    obtain ⟨low, e, hg, hflat, hop, heval⟩ := const_gives wf hpos hw lo
    obtain ⟨high, e', hg', hflat', hop', heval'⟩ := const_gives wf hpos hw hi
    refine lays_narrow ([low ++ " <= " ++ name] ++ [name ++ " <= " ++ high]) he (by simp)
      (Nat.not_lt.2 hw) (by simp) ?_
      fun hs hname rt m n hm hn => ?_
    · refine .bind hg (.bind hg' ?_)
      have htext : s!"{low} <= {name} && {name} <= {high}" =
          low ++ " <= " ++ name ++ " && " ++ (name ++ " <= " ++ high) := by
        simp [← String.toList_inj]
      rw [List.singleton_append, String.intercalate_cons_cons, String.intercalate_singleton,
        ← htext]
      exact .pure _
    · have hlow := (hname.says_eq hw hm hn hop (heval _)).2.1
      have hhigh := (hname.says_eq hw hm hn hop' (heval' _)).2.2
      have hflats : isFlat name = true := isFlat_of_word hname.1.chars
      have hboth := (Tested.single (by simp +decide [hflat, hflats]) hlow).append
        (.single (by simp +decide [hflat', hflats]) hhigh)
      rw [← decide_eq_true_iff (p := _ ≤ n), ← decide_eq_true_iff (p := n ≤ _), ← Bool.and_eq_true]
        at hboth
      exact hboth

end Patterns

/-! ### Lowering cases -/

section Cases

open Program

variable {env : Env} {loud : Bool} {keys ks : List env.program.Key} {is : List ExprId}
  {names : List String} {i : ExprId} (wf : env.program.WellFormed)
  (hlabels : ∀ k ∈ keys, Label k.place.headerId ∧ Label k.place.fieldId)

include wf in
theorem lays_keyConditions (xs : env.program.Patterns ks is) (names : List String) :
    Lays (selectPlan keys hlabels).ledger env loud
      (keyConditions Lower.expr (((ks.map Key.id).zip names).zip is)) fun conditions hs =>
        List.Forall₂ (Declared hs) ks names → ∃ groups : List (List String),
          conditions = groups.map (String.intercalate " && ") ∧ (∀ g ∈ groups, g ≠ []) ∧
          ∀ rt m vs, Hoisted.Holds rt hs m → List.Forall₂ (Key.Reads rt) ks vs →
            Tested (m.store rt) groups.flatten (xs.accepts vs = true) := by
  induction xs generalizing names with
  | nil =>
    refine .pure fun hs _ => ⟨[], rfl, nofun, fun rt m vs _ hvs => ?_⟩
    cases hvs
    exact .nil rfl
  | @cons k ks i is x xs ih =>
    cases names with
    | nil => exact .pure fun hs h => nomatch h
    | cons name names =>
      refine .bind (lays_keyCondition wf hlabels x) fun c => .bind (ih names) fun cs => .pure ?_
      rintro hs hcs ⟨groups, hc, hne, hx⟩ (_ | ⟨hname, hnames⟩)
      obtain ⟨groups', rfl, hne', hxs⟩ := hcs hnames
      refine ⟨groups ++ groups', by rw [hc, List.map_append],
        List.forall_mem_append.2 ⟨hne, hne'⟩, fun rt m vs hm hvs => ?_⟩
      cases hvs with
      | cons hn hvs =>
        have hboth := (hx hname rt m _ hm hn).append (hxs rt m _ hm hvs)
        rw [← Bool.and_eq_true] at hboth
        rw [List.flatten_append]
        exact hboth

/-- A default by itself needs no test, whatever the keys are. -/
theorem keyConditions_default {ty : Ty} (h : env.program.Is i ty .default)
    (keys : List env.program.Key) (names : List String) :
    keyConditions Lower.expr (((keys.map Key.id).zip names).zip [i]) env =
      (pure [] : LowerM (List String)) env := by
  match keys, names with
  | [], _ | _ :: _, [] => rfl
  | k :: keys, name :: names =>
    obtain ⟨id, he⟩ := h
    obtain ⟨id', hk⟩ := k.field.isMember
    have hnone : keyCondition Lower.expr k.id name i env =
        (pure none : LowerM (Option String)) env := by
      unfold keyCondition
      rw [bind_of_pure (look_of_ok hk), bind_of_pure (look_of_ok he)]
    rw [List.map_cons, List.zip_cons_cons, List.zip_cons_cons, List.zip_nil_right, keyConditions,
      bind_of_pure hnone]
    rfl

/-- The function of a state of the parser. -/
def stateFunction (state : String) : String := "parser_state_" ++ state

def stateArgs : List Term := [.name "pd", .name "buf", .name "tables", .name "pstate"]

theorem branch_eq (recur : Recur) (keys : List (ExprId × String)) (case : SelectArm) :
    branch recur keys case = (do
      let parts ← look fun p => keysetParts p case.keyset
      let conditions ← keyConditions recur (keys.zip parts)
      return Branch.text
        (if conditions.isEmpty then "true /* default */" else String.intercalate " && " conditions)
        (stateFunction case.state) "pd, buf, tables, pstate" : LowerM String) := by
  have htext : ∀ test : String, s!"if({test})\x7b{Target.parserStateCall case.state}\x7d" =
      Branch.text test (stateFunction case.state) "pd, buf, tables, pstate" := by
    simp [Branch.text, stateFunction, Target.parserStateCall, ← String.toList_inj]
  unfold branch
  simp only [htext]

theorem keysetParts_of_expr {p : Program} {e : Expr} (he : p.At i e)
    (hnode : ∀ is, e.node ≠ .list is) : keysetParts p i = .ok [i] := by
  obtain ⟨id, ty, node⟩ := e
  unfold keysetParts
  rw [he]
  cases node with
  | list is => exact absurd rfl (hnode is)
  | _ => rfl

theorem keysetParts_of_pattern {p : Program} {w : UInt32} (x : p.Pattern w i) :
    keysetParts p i = .ok [i] := by
  cases x with
  | any h | masked h | between h => exact keysetParts_of_expr h.choose_spec nofun
  | exactly c => exact keysetParts_of_expr c.is.choose_spec nofun

include wf

/-- A branch under a test of patterns. -/
theorem lays_patterns (hparts : keysetParts env.program i = .ok is)
    (xs : env.program.Patterns keys is) (state : String) (names : List String) :
    Lays (selectPlan keys hlabels).ledger env loud
      (branch Lower.expr ((keys.map Key.id).zip names) ⟨i, state⟩) fun text hs =>
        List.Forall₂ (Declared hs) keys names → ∃ test,
          text = Branch.text test (stateFunction state) "pd, buf, tables, pstate" ∧
          ∀ rt m vs, Hoisted.Holds rt hs m → List.Forall₂ (Key.Reads rt) keys vs →
            Guards (m.store rt) test (xs.accepts vs = true) := by
  rw [branch_eq]
  refine .known (look_of_ok hparts) (.bind (lays_keyConditions wf hlabels xs names)
    fun conditions => .pure fun hs hconditions hnames => ?_)
  obtain ⟨groups, rfl, hne, htested⟩ := hconditions hnames
  exact ⟨_, rfl, fun rt m vs hm hvs => (htested rt m vs hm hvs).guards hne⟩

/-- A case is a branch to its state, under a test of its patterns. -/
theorem lays_branch (c : env.program.Case keys) (names : List String) :
    Lays (selectPlan keys hlabels).ledger env loud
      (branch Lower.expr ((keys.map Key.id).zip names) ⟨c.id, c.state⟩) fun text hs =>
        List.Forall₂ (Declared hs) keys names → ∃ test,
          text = Branch.text test (stateFunction c.state) "pd, buf, tables, pstate" ∧
          ∀ rt m vs, Hoisted.Holds rt hs m → List.Forall₂ (Key.Reads rt) keys vs →
            Guards (m.store rt) test (c.accepts vs = true) := by
  obtain ⟨state, i, keyset⟩ := c
  cases keyset with
  | all h =>
    rw [branch_eq]
    refine .known (look_of_ok (keysetParts_of_expr h.choose_spec nofun))
      (.known (keyConditions_default h keys names) (.pure fun hs _ => ?_))
    exact ⟨_, rfl, fun _ _ _ _ _ => guards_default rfl⟩
  | single xs =>
    cases xs with
    | cons x xs =>
      exact lays_patterns wf hlabels (keysetParts_of_pattern x) (.cons x xs) state names
  | @list _ is h xs =>
    obtain ⟨id, he⟩ := h
    have hparts : keysetParts env.program i = .ok is := by
      unfold keysetParts
      rw [he]
      rfl
    exact lays_patterns wf hlabels hparts xs state names

end Cases

end PacketC
