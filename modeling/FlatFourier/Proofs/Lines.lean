import FlatFourier.Program.Reader
import FlatFourier.Proofs.Assembly
import FlatFourier.Proofs.Literal

namespace FlatFourier

namespace Text

def isWordChar (c : Char) : Bool :=
  c.isAlphanum || c = '_'

/-- An identifier of ASCII letters, digits and underscores that no digit starts. -/
def isIdentifier (s : Text) : Bool :=
  s.head?.any (fun c => c.isAlpha || c = '_') && s.all isWordChar

variable {s array : Text} {c : Char}

theorem isWordChar_of_isIdentifier (h : isIdentifier s = true) : ∀ c ∈ s, isWordChar c = true := by
  simp only [isIdentifier, Bool.and_eq_true, List.all_eq_true] at h
  exact h.2

theorem isIdentifier_ne_nil (h : isIdentifier s = true) : s ≠ [] := by
  intro hs
  simp [hs, isIdentifier] at h

theorem toNat_of_isWordChar (h : isWordChar c = true) : 48 ≤ c.toNat ∧ c.toNat ≤ 122 := by
  simp only [isWordChar, Char.isAlphanum, Char.isAlpha, Char.isUpper, Char.isLower, Char.isDigit,
    Bool.or_eq_true, Bool.and_eq_true, decide_eq_true_eq, UInt32.le_iff_toNat_le] at h
  rcases h with ((h | h) | h) | rfl
  · have h : 65 ≤ c.toNat ∧ c.toNat ≤ 90 := h
    omega
  · have h : 97 ≤ c.toNat ∧ c.toNat ≤ 122 := h
    omega
  · have h : 48 ≤ c.toNat ∧ c.toNat ≤ 57 := h
    omega
  · decide

theorem isBlank_of_isWordChar (h : isWordChar c = true) : isBlank c = false := by
  have hc := toNat_of_isWordChar h
  simp [isBlank, blankRanges]
  grind

theorem not_mem_of_word {d : Char} (hs : ∀ c ∈ s, isWordChar c = true)
    (hd : isWordChar d = false) : d ∉ s := by
  intro hm
  rw [hs d hm] at hd
  cases hd

/-- A text with a character that is not in words stands at no word's start. -/
theorem not_prefix_of_word {q r rest : Text} {d : Char} (hs : ∀ c ∈ s, isWordChar c = true)
    (hc : isWordChar c = false) (hq : d ∉ q) (hd : c ≠ d) : ¬q ++ c :: r <+: s ++ d :: rest := by
  induction q generalizing s with
  | nil =>
    cases s with
    | nil => simp [hd]
    | cons e s =>
      intro h
      have he : c = e := by simpa using (List.cons_prefix_cons.mp h).1
      rw [he, hs e (by simp)] at hc
      cases hc
  | cons x q ih =>
    cases s with
    | nil =>
      intro h
      exact hq (by simp [(List.cons_prefix_cons.mp h).1])
    | cons e s =>
      intro h
      exact ih (fun c hm => hs c (by simp [hm])) (fun hm => hq (by simp [hm]))
        (List.cons_prefix_cons.mp h).2

end Text

namespace Listing

open Text

/-- The name that a node's value is bound to. -/
def name (i : Nat) : Text :=
  'x' :: Nat.toDigits 10 i

/-- The names of nodes are among these. -/
def IsName (s : Text) : Prop :=
  ∃ digits, s = 'x' :: digits ∧ Digits digits

/-- A node's value where it is used. -/
def token (g : Graph) (i : NodeId) : Text :=
  match g.constant? i with
  | some x => literal x
  | none => name i

def indexed (array : Text) (c : Nat) : Text :=
  array ++ '[' :: Nat.toDigits 10 c ++ [']']

def assignment (target value : Text) : Text :=
  target ++ " = ".toList ++ value ++ [';']

/-- The line that binds a node's name to the text of its value. -/
def binding (i : Nat) (value : Text) : Text :=
  "let ".toList ++ assignment (name i) value

/-- The line of a node, if it has one. -/
def line (g : Graph) (array : Text) (n : Node) : List Text :=
  match n.kind with
  | .const _ => []
  | .binary op a b => [binding n.id (token g a ++ ' ' :: (op.symbol.toList ++ ' ' :: token g b))]
  | .unary op a =>
    [binding n.id ("f64::".toList ++ op.symbol.toList ++ ['('] ++ token g a ++ [')'])]
  | .read _ c _ => [binding n.id (indexed array c)]
  | .write _ c a => [assignment (indexed array c) (token g a)]
  | .result a => [binding n.id (token g a)]

theorem name_inj (h : name i = name j) : i = j := by
  have hd : Nat.toDigits 10 i = Nat.toDigits 10 j := List.tail_eq_of_cons_eq h
  rw [← numeral_toDigits i, hd, numeral_toDigits]

theorem isWordChar_name (i : Nat) : ∀ c ∈ name i, isWordChar c = true := by
  refine List.forall_mem_cons.mpr ⟨rfl, ?_⟩
  intro c hc
  simp [isWordChar, Char.isAlphanum, digits_toDigits i c hc]

/-- A text that is read as one operand: one word that ends no cell and starts no call. -/
structure IsOperand (s : Text) : Prop where
  solid : Solid s
  nonempty : s ≠ []
  bracket : ']' ∉ s
  call : ∀ f ∈ ["f64::sin(".toList, "f64::cos(".toList], ∀ rest, f.isPrefixOf? (s ++ rest) = none

theorem IsOperand.between_sin (h : IsOperand s) (rest : Text) :
    between "f64::sin(".toList [')'] (s ++ rest) = none := by
  rw [between, h.call _ (by simp) rest, Option.bind_none]

theorem IsOperand.between_cos (h : IsOperand s) (rest : Text) :
    between "f64::cos(".toList [')'] (s ++ rest) = none := by
  rw [between, h.call _ (by simp) rest, Option.bind_none]

theorem isOperand_name (i : Nat) : IsOperand (name i) where
  solid c hc := isBlank_of_isWordChar (isWordChar_name i c hc)
  nonempty := nofun
  bracket := not_mem_of_word (isWordChar_name i) rfl
  call := by
    simp only [List.forall_mem_cons]
    exact ⟨fun rest => rfl, fun rest => rfl, nofun⟩

theorem isOperand_literal (x : Float) : IsOperand (literal x) := by
  rcases literal_cases x with h | ⟨hc, c, s, hs, hh⟩
  · have hnames : ∀ s ∈ constantNames, IsOperand s := by
      simp only [constantNames, List.forall_mem_cons]
      refine ⟨⟨solid_of_all rfl, nofun, by decide, ?_⟩,
        ⟨solid_of_all rfl, nofun, by decide, ?_⟩,
        ⟨solid_of_all rfl, nofun, by decide, ?_⟩, nofun⟩
      all_goals
        simp only [List.forall_mem_cons]
        exact ⟨fun rest => rfl, fun rest => rfl, nofun⟩
    exact hnames _ h
  · refine ⟨fun c hm => isBlank_of_isNumberChar (hc c hm), by simp [hs],
      fun hm => (nomatch hc _ hm), ?_⟩
    have hf : 'f' ≠ c := by
      rcases hh with hd | rfl
      · exact ne_of_isDigit hd rfl
      · decide
    rw [hs]
    simp only [List.forall_mem_cons]
    exact ⟨fun rest => isPrefixOf?_of_head hf _ _, fun rest => isPrefixOf?_of_head hf _ _, nofun⟩

theorem isOperand_token (g : Graph) (i : NodeId) : IsOperand (token g i) := by
  unfold token
  split
  · exact isOperand_literal _
  · exact isOperand_name _

theorem isName_name (i : Nat) : IsName (name i) :=
  ⟨_, rfl, digits_toDigits i⟩

/-- No literal can be taken for a name. -/
theorem not_isName_literal (x : Float) : ¬IsName (literal x) := by
  rintro ⟨digits, h, _⟩
  rcases literal_cases x with hm | ⟨_, c, s, hs, hc⟩
  · rw [h] at hm
    simp [constantNames] at hm
  · rw [hs] at h
    have hx : c = 'x' := List.head_eq_of_cons_eq h
    subst hx
    rcases hc with hc | hc
    · cases hc
    · cases hc

end Listing

namespace Program

open Text Listing

/-- Names that are bound to the registers of the given nodes. -/
structure Registers (named : List NodeId) (bound : Std.HashMap String Nat) : Prop where
  register : ∀ i ∈ named, bound[String.ofList (name i)]? = some (named.idxOf i)
  known : ∀ s, String.ofList s ∈ bound → ∃ i ∈ named, s = name i
  size : bound.size = named.length

variable {named : List NodeId} {bound : Std.HashMap String Nat} {i : Nat}

theorem Registers.empty : Registers [] ∅ where
  register := nofun
  known _ h := absurd h Std.HashMap.not_mem_empty
  size := Std.HashMap.size_empty

theorem Registers.not_mem (h : Registers named bound) (hi : i ∉ named) :
    String.ofList (name i) ∉ bound := by
  intro hm
  obtain ⟨j, hj, he⟩ := h.known _ hm
  exact hi (name_inj he ▸ hj)

theorem Registers.insert (h : Registers named bound) (hi : i ∉ named) :
    Registers (named ++ [i]) (bound.insert (String.ofList (name i)) bound.size) where
  register j hj := by
    rw [Std.HashMap.getElem?_insert]
    by_cases he : i = j
    · subst he
      simp [h.size, List.idxOf_append, hi]
    · have hk : (String.ofList (name i) == String.ofList (name j)) = false := by
        rw [beq_eq_false_iff_ne]
        intro hs
        exact he (name_inj (String.ofList_injective hs))
      have hj : j ∈ named := by simpa [Ne.symm he] using hj
      simp [hk, h.register j hj, List.idxOf_append, hj]
  known s hs := by
    rcases Std.HashMap.mem_insert.mp hs with hk | hm
    · have he : name i = s := String.ofList_injective (eq_of_beq hk)
      exact ⟨i, by simp, he.symm⟩
    · obtain ⟨j, hj, he⟩ := h.known s hm
      exact ⟨j, by simp [hj], he⟩
  size := by
    rw [Std.HashMap.size_insert, if_neg (h.not_mem hi), h.size, List.length_append]
    rfl

theorem isPrefixOf?_store {s t : Text} (hs : ∀ d ∈ s, isWordChar d = true) (q : Text) (d : Char)
    (r : Text) (hq : '[' ∉ q) (hd : isWordChar d = false) (hb : d ≠ '[') :
    (q ++ d :: r).isPrefixOf? (assignment (indexed s c) t) = none := by
  have htext : assignment (indexed s c) t =
      s ++ '[' :: (Nat.toDigits 10 c ++ "] = ".toList ++ t ++ [';']) := by
    simp [assignment, indexed]
  rw [htext]
  exact isPrefixOf?_eq_none (not_prefix_of_word hs hd hq hb)

namespace Body

variable {b : Body} {g : Graph} {array s t : Text}

/-- A literal is read as its constant, as long as only nodes have names. -/
theorem operand_literal (hb : ∀ key ∈ b.names, IsName key.toList) (x : Float) :
    b.operand (literal x) = .ok (.immediate x) := by
  have hm : String.ofList (literal x) ∉ b.names := by
    intro hm
    have hname := hb _ hm
    rw [String.toList_ofList] at hname
    exact not_isName_literal x hname
  simp [operand, hm, constant?_literal]

theorem operand_token (h : Registers named b.names) (hi : g.constant? i = none → i ∈ named) :
    b.operand (token g i) = .ok (Assembly.operand g named i) := by
  unfold token Assembly.operand
  cases hx : g.constant? i with
  | some x =>
    refine operand_literal ?_ x
    intro key hm
    rw [← String.ofList_toList (s := key)] at hm
    obtain ⟨j, _, he⟩ := h.known _ hm
    exact he ▸ isName_name j
  | none => simp [operand, h.register i (hi hx)]

/-- A node that has no register is reported by its name. -/
theorem operand_unbound (h : Registers named b.names) (hx : g.constant? i = none)
    (hi : i ∉ named) : b.operand (token g i) = .error (.unboundName (name i)) := by
  have hname : b.names[String.ofList (name i)]? = none := by simpa using h.not_mem hi
  have hconst : constant? ((between ['('] [')'] (name i)).getD (name i)) = none := rfl
  rw [token, hx, operand, hname, hconst]

theorem bufferNamed_data (b : Body) : b.bufferNamed b.data = .ok .data :=
  if_pos rfl

theorem cell_indexed (hs : '[' ∉ s) (hb : b.bufferNamed s = .ok buffer) (hc : c < countBound) :
    b.cell (indexed s c) = .ok (buffer, c) := by
  have hcut : ([']'].isSuffixOf? (indexed s c)).bind (cut ['[']) = some (s, Nat.toDigits 10 c) := by
    rw [indexed, isSuffixOf?_append, Option.bind_some]
    exact cut_append hs [] _
  simp only [cell, hcut, hb, count?_toDigits hc]
  rfl

theorem assignment?_assignment (hs : ' ' ∉ s) (value : Text) :
    assignment? (assignment s value) = some (s, value) := by
  rw [assignment?, assignment, isSuffixOf?_append, Option.bind_some, List.append_assoc]
  exact cut_append hs _ value

/-- Texts that start no call and end no cell are read word by word. -/
theorem expression_binary (hs : IsOperand s) (ht : IsOperand t) (b : Body) (target : Nat)
    (op : BinaryOp) :
    b.expression target (s ++ ' ' :: (op.symbol.toList ++ ' ' :: t)) = (do
      let left ← b.operand s
      let right ← b.operand t
      return .binary target op left right) := by
  have hlast : (s ++ ' ' :: (op.symbol.toList ++ ' ' :: t)).getLast? ≠ some ']' := by
    intro hl
    have hsplit : s ++ ' ' :: (op.symbol.toList ++ ' ' :: t) =
        (s ++ ' ' :: op.symbol.toList ++ [' ']) ++ t := by simp
    have hsome : t.getLast?.isSome = true := by simpa using ht.nonempty
    rw [hsplit, List.getLast?_append, Option.or_of_isSome hsome] at hl
    exact ht.bracket (List.mem_of_getLast? hl)
  have hwords : words (s ++ ' ' :: (op.symbol.toList ++ ' ' :: t)) = [s, op.symbol.toList, t] := by
    rw [words_cons hs.solid hs.nonempty,
      words_cons (solid_of_all (by cases op <;> rfl)) (by cases op <;> decide),
      words_of_solid ht.solid ht.nonempty]
  have hop : BinaryOp.ofSymbol? op.symbol.toList = some op := by cases op <;> rfl
  rw [expression, hs.between_sin, hs.between_cos]
  simp only [hlast, if_false, hwords, hop]

theorem expression_operand (hs : IsOperand s) (b : Body) (target : Nat) :
    b.expression target s = (do return .copy target (← b.operand s)) := by
  have hlast : s.getLast? ≠ some ']' := fun hl => hs.bracket (List.mem_of_getLast? hl)
  have hsin := hs.between_sin []
  have hcos := hs.between_cos []
  rw [List.append_nil] at hsin hcos
  rw [expression, hsin, hcos]
  simp only [hlast, if_false, words_of_solid hs.solid hs.nonempty]

theorem expression_unary (b : Body) (target : Nat) (op : UnaryOp) (s : Text) :
    b.expression target ("f64::".toList ++ op.symbol.toList ++ ['('] ++ s ++ [')']) =
      (do return .unary target op (← b.operand s)) := by
  cases op with
  | sin =>
    have htext : "f64::".toList ++ UnaryOp.sin.symbol.toList ++ ['('] ++ s ++ [')'] =
        "f64::sin(".toList ++ s ++ [')'] := rfl
    rw [htext, expression, between_append]
  | cos =>
    have htext : "f64::".toList ++ UnaryOp.cos.symbol.toList ++ ['('] ++ s ++ [')'] =
        "f64::cos(".toList ++ s ++ [')'] := rfl
    have hsin : between "f64::sin(".toList [')'] ("f64::cos(".toList ++ s ++ [')']) = none := rfl
    rw [htext, expression, hsin, between_append]

theorem expression_indexed (hb : isIdentifier b.data = true) (hc : c < countBound) (target : Nat) :
    b.expression target (indexed b.data c) = .ok (.load target .data c) := by
  have hword := isWordChar_of_isIdentifier hb
  have hcall : ∀ r, ("f64".toList ++ ':' :: r).isPrefixOf? (indexed b.data c) = none := by
    intro r
    rw [indexed, List.append_assoc, List.cons_append]
    exact isPrefixOf?_eq_none (not_prefix_of_word hword rfl (by decide) (by decide))
  have hsin : between "f64::sin(".toList [')'] (indexed b.data c) = none := by
    have hp : "f64::sin(".toList.isPrefixOf? (indexed b.data c) = none := hcall ":sin(".toList
    rw [between, hp, Option.bind_none]
  have hcos : between "f64::cos(".toList [')'] (indexed b.data c) = none := by
    have hp : "f64::cos(".toList.isPrefixOf? (indexed b.data c) = none := hcall ":cos(".toList
    rw [between, hp, Option.bind_none]
  have hlast : (indexed b.data c).getLast? = some ']' := List.getLast?_concat
  have hcell := cell_indexed (not_mem_of_word hword rfl) b.bufferNamed_data hc
  rw [expression, hsin, hcos]
  simp only [hlast, if_true, hcell]
  rfl

/-- A node's name that is new is bound to the value of an expression. -/
theorem statement_named (hs : IsName s) (hfresh : String.ofList s ∉ b.names) (t : Text) :
    b.statement ("let ".toList ++ assignment s t) = (do
      let x ← b.expression b.names.size t
      return { b with names := b.names.insert (String.ofList s) b.names.size,
                      instrs := b.instrs.push x }) := by
  obtain ⟨digits, rfl, hdigits⟩ := hs
  have hblank : ' ' ∉ 'x' :: digits := by
    intro hm
    rcases List.mem_cons.mp hm with hx | hd
    · cases hx
    · cases hdigits _ hd
  change b.bindName (assignment ('x' :: digits) t) = _
  simp only [bindName, assignment?_assignment hblank, hfresh, if_false]

theorem statement_binding (h : Registers named b.names) (hi : i ∉ named) (s : Text) :
    b.statement (binding i s) = (do
      let x ← b.expression named.length s
      return { b with names := b.names.insert (String.ofList (name i)) b.names.size,
                      instrs := b.instrs.push x }) := by
  rw [binding, statement_named (isName_name i) (h.not_mem hi), h.size]

theorem statement_store (hs : ∀ d ∈ s, isWordChar d = true) (hdata : '[' ∉ b.data)
    (hout : ∀ o ∈ b.out, '[' ∉ o.1) (hb : b.bufferNamed s = .ok buffer) (hc : c < countBound)
    (t : Text) :
    b.statement (assignment (indexed s c) t) = (do
      let source ← b.operand t
      return { b with instrs := b.instrs.push (.store buffer c source) }) := by
  have hbracket : '[' ∉ s := not_mem_of_word hs rfl
  have hassert : "assert_eq!(".toList.isPrefixOf? (assignment (indexed s c) t) = none :=
    isPrefixOf?_store hs "assert_eq".toList '!' ['('] (by decide) rfl (by decide)
  have hmut : "let mut ".toList.isPrefixOf? (assignment (indexed s c) t) = none :=
    isPrefixOf?_store hs "let".toList ' ' "mut ".toList (by decide) rfl (by decide)
  have hlet : "let ".toList.isPrefixOf? (assignment (indexed s c) t) = none :=
    isPrefixOf?_store hs "let".toList ' ' [] (by decide) rfl (by decide)
  have hin : '[' ∈ assignment (indexed s c) t := by simp [assignment, indexed]
  have hne : assignment (indexed s c) t ≠ b.data := fun he => hdata (he ▸ hin)
  have hno : (b.out.any fun o => assignment (indexed s c) t = o.1) = false := by
    cases ho : b.out with
    | none => rfl
    | some o =>
      have hne : assignment (indexed s c) t ≠ o.1 := fun he => hout o ho (he ▸ hin)
      simp [hne]
  have hblank : ' ' ∉ indexed s c := by
    intro hm
    simp only [indexed, List.append_assoc, List.mem_append, List.mem_cons] at hm
    rcases hm with hm | (hm | hm) | hm | hm
    · cases hs _ hm
    · cases hm
    · cases digits_toDigits c _ hm
    · cases hm
    · cases hm
  rw [statement, hassert, hmut, hlet]
  simp only [hne, hno, if_false, Bool.false_eq_true, assignment?_assignment hblank, assign,
    cell_indexed hbracket hb hc]
  rfl

end Body

end Program

end FlatFourier
