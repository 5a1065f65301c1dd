import FlatFourier.Proofs.Parsing

namespace FlatFourier

/-- The float has the given bits. There is only one NaN for all patterns that stand for one. -/
def HasBits (bits : UInt64) (x : Float) : Prop :=
  if Binary.infinity < bits.toNat % signBit then x.isNaN = true else x.toBits = bits

theorem hasBits_ofBits (bits : UInt64) : HasBits bits (.ofBits bits) := by
  unfold HasBits
  split
  · rename_i hnan
    exact isNaN_ofBits hnan
  · rename_i hnumber
    exact toBits_ofBits (Nat.not_lt.mp hnumber)

namespace Program

open Text Listing

namespace Body

/-- The body after an instruction whose value has got a name. -/
def named (b : Body) (name : Text) (x : Instr) : Body :=
  { b with names := b.names.insert (String.ofList name) b.names.size, instrs := b.instrs.push x }

/-- The body after an instruction without a name. -/
def followed (b : Body) (x : Instr) : Body :=
  { b with instrs := b.instrs.push x }

variable {b : Body} {name s : Text} {x : Instr}

theorem statement_of_expression (hname : IsName name) (hfresh : String.ofList name ∉ b.names)
    (he : b.expression b.names.size s = .ok x) :
    b.statement ("let ".toList ++ assignment name s) = .ok (b.named name x) := by
  rw [statement_named hname hfresh, he]
  rfl

end Body

/-- The places of operands: a statement with one operand left open, and the body that comes of the
statement with that operand. -/
inductive Place (b : Body) : (Text → Text) → (Operand → Body) → Prop where
  | left (op : BinaryOp) {other : Text} {o : Operand} (one : IsOperand other)
      (known : b.operand other = .ok o) {name : Text} (isName : IsName name)
      (fresh : String.ofList name ∉ b.names) :
      Place b
        (fun s => "let ".toList ++ assignment name (s ++ ' ' :: (op.symbol.toList ++ ' ' :: other)))
        fun a => b.named name (.binary b.names.size op a o)
  | right (op : BinaryOp) {other : Text} {o : Operand} (one : IsOperand other)
      (known : b.operand other = .ok o) {name : Text} (isName : IsName name)
      (fresh : String.ofList name ∉ b.names) :
      Place b
        (fun s => "let ".toList ++ assignment name (other ++ ' ' :: (op.symbol.toList ++ ' ' :: s)))
        fun a => b.named name (.binary b.names.size op o a)
  | argument (op : UnaryOp) {name : Text} (isName : IsName name)
      (fresh : String.ofList name ∉ b.names) :
      Place b
        (fun s => "let ".toList ++
          assignment name ("f64::".toList ++ op.symbol.toList ++ ['('] ++ s ++ [')']))
        fun a => b.named name (.unary b.names.size op a)
  | source {name : Text} (isName : IsName name) (fresh : String.ofList name ∉ b.names) :
      Place b (fun s => "let ".toList ++ assignment name s)
        fun a => b.named name (.copy b.names.size a)
  | stored {array : Text} {buffer : Buffer} {c : Nat} (word : ∀ d ∈ array, isWordChar d = true)
      (data : '[' ∉ b.data) (out : ∀ o ∈ b.out, '[' ∉ o.1)
      (known : b.bufferNamed array = .ok buffer) (count : c < countBound) :
      Place b (fun s => assignment (indexed array c) s) fun a => b.followed (.store buffer c a)

/-- At every place an operand that is one token is read as what it denotes. -/
theorem Place.reads {b : Body} {line : Text → Text} {outcome : Operand → Body} {s : Text}
    {a : Operand} (h : Place b line outcome) (hs : IsOperand s) (ha : b.operand s = .ok a) :
    b.statement (line s) = .ok (outcome a) := by
  cases h with
  | left op one known isName fresh =>
    apply Body.statement_of_expression isName fresh
    rw [Body.expression_binary hs one, ha, known]
    rfl
  | right op one known isName fresh =>
    apply Body.statement_of_expression isName fresh
    rw [Body.expression_binary one hs, known, ha]
    rfl
  | argument op isName fresh =>
    apply Body.statement_of_expression isName fresh
    rw [Body.expression_unary, ha]
    rfl
  | source isName fresh =>
    apply Body.statement_of_expression isName fresh
    rw [Body.expression_operand hs, ha]
    rfl
  | stored word data out known count =>
    rw [Body.statement_store word data out known count, ha]
    rfl

/-- The literal of any float is read as an operand with the bits of that float, whatever has been
read before, as long as only nodes have names. It has no blank and does not end in a bracket, and so
it is one token at every place of an operand. -/
theorem literal_survives (bits : UInt64) {b : Body} (hb : ∀ key ∈ b.names, IsName key.toList) :
    ∃ x, HasBits bits x ∧ b.operand (literal (.ofBits bits)) = .ok (.immediate x) ∧
      (∀ c ∈ literal (.ofBits bits), isBlank c = false) ∧
      (literal (.ofBits bits)).getLast? ≠ some ']' ∧
      ∀ line outcome, Place b line outcome →
        b.statement (line (literal (.ofBits bits))) = .ok (outcome (.immediate x)) := by
  have hread := Body.operand_literal hb (.ofBits bits)
  have hone := isOperand_literal (.ofBits bits)
  refine ⟨.ofBits bits, hasBits_ofBits bits, hread, hone.solid, ?_, ?_⟩
  · intro hlast
    exact hone.bracket (List.mem_of_getLast? hlast)
  · intro line outcome hplace
    exact hplace.reads hone hread

/-- A body in which one name is bound. -/
def oneName : Body :=
  (Body.ofParameter "data".toList).named "x3".toList (.load 0 .data 2)

theorem isName_oneName : ∀ key ∈ oneName.names, IsName key.toList := by
  intro key hm
  rcases Std.HashMap.mem_insert.mp hm with he | hempty
  · rw [← eq_of_beq he, String.toList_ofList]
    exact isName_name 3
  · exact absurd hempty Std.HashMap.not_mem_empty

/-- The negative zero behind an operator. -/
theorem literal_survives_negativeZero : ∃ x : Float, x.toBits = 0x8000000000000000 ∧
    oneName.operand "(-0.0)".toList = .ok (.immediate x) ∧
    oneName.statement "let x7 = x3 - (-0.0);".toList =
      .ok (oneName.named "x7".toList (.binary oneName.names.size .minus (.register 0)
        (.immediate x))) := by
  have htext : literal (.ofBits 0x8000000000000000) = "(-0.0)".toList := by decide
  have hfirst : oneName.operand (name 3) = .ok (.register 0) := by
    have hbound : oneName.names[String.ofList (name 3)]? = some 0 :=
      Std.HashMap.getElem?_insert_self
    rw [Body.operand, hbound]
  have hfresh : String.ofList (name 7) ∉ oneName.names := by
    intro hm
    rcases Std.HashMap.mem_insert.mp hm with he | hempty
    · have hsame : name 3 = name 7 := String.ofList_injective (eq_of_beq he)
      exact absurd (name_inj hsame) (by decide)
    · exact absurd hempty Std.HashMap.not_mem_empty
  obtain ⟨x, hbits, hread, _, _, hplaces⟩ := literal_survives 0x8000000000000000 isName_oneName
  rw [htext] at hread hplaces
  exact ⟨x, hbits, hread, hplaces _ _
    (.right .minus (isOperand_name 3) hfirst (isName_name 7) hfresh)⟩

end Program

end FlatFourier
