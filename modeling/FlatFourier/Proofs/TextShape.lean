import FlatFourier.Proofs.Fillers

namespace FlatFourier

namespace Program

open Text Listing

/-- What a line of a body is for. -/
inductive Role where
  /-- Gives the length of the input. -/
  | assertion
  /-- Copies the data buffer. -/
  | copy
  /-- Declares the result buffer. -/
  | declaration
  | binding
  /-- Returns a buffer. -/
  | delivery
  | store
deriving DecidableEq, Repr

/-- The role of a line is told by its first word or by its end. Without a keyword, it is a store if
it has an equals sign and is not the name of the parameter. -/
def role (data l : Text) : Role :=
  if "assert_eq!(".toList.isPrefixOf l then .assertion
  else if "let mut ".toList.isPrefixOf l then
    if ".to_vec();".toList.isSuffixOf l then .copy else .declaration
  else if "let ".toList.isPrefixOf l then .binding
  else if (cut " = ".toList l).isNone || l = data then .delivery
  else .store

/-- The last line of a role. -/
def lastOf (data : Text) (r : Role) (ls : List Text) : Option Text :=
  (ls.filter fun l => role data l = r).getLast?

/-- The line asserts that the input has the given length. -/
def Asserts (data : Text) (length : Nat) (l : Text) : Prop :=
  ∃ written, count? written = some length ∧
    l = "assert_eq!(".toList ++ (data ++ ".len(), ".toList ++ written ++ ");".toList)

/-- The line declares a result buffer of the given name and length. -/
def Declares (name : Text) (length : Nat) (l : Text) : Prop :=
  cut " = ".toList name = none ∧ ∃ written, count? written = some length ∧
    l = "let mut ".toList ++ assignment name ("vec![0.0_f64; ".toList ++ written ++ [']'])

/-- A line in the form of its role, behind the given lines of the body. A line that returns a buffer
is the name of the parameter, or of the result buffer that has been declared last. -/
def HasForm (data : Text) (before : List Text) (l : Text) : Prop :=
  match role data l with
  | .assertion => ∃ length, Asserts data length l
  | .copy => l = "let mut ".toList ++ assignment data (data ++ ".to_vec()".toList)
  | .declaration => ∃ name length, Declares name length l
  | .binding => ∃ name value, l = "let ".toList ++ assignment name value
  | .delivery => l = data ∨
      ∃ length, ∃ d ∈ lastOf data .declaration before, Declares l length d
  | .store => ∃ target value, l = assignment target value

/-- What follows the name of the parameter in a header. -/
def signature : Text :=
  ": &[f64]) -> Vec<f64> \x7b".toList

/-- A header, with the parameter's name: it stands between the first bracket and the signature. -/
def IsHeader (data l : Text) : Prop :=
  ∃ title written rest, cut ['('] title = none ∧ cut signature written = none ∧
    data = trim written ∧
    l = "pub fn ".toList ++ (title ++ ('(' :: (written ++ (signature ++ rest))))

/-- The lines are one header, a body and one brace at the end. -/
structure Framed (ls : List Text) (data : Text) (body : List Text) : Prop where
  lines : ∃ header, IsHeader data header ∧ ls = header :: (body ++ [['\x7d']])
  headers : ∀ l ∈ body, ¬"pub fn ".toList <+: l
  braces : ['\x7d'] ∉ body

/-- The lines of a text without the blanks around them, and without those that are empty, remarks or
attributes. -/
def significant (source : Text) : List Text :=
  (source.lines.map Text.trim).filter fun l => ¬l.Silent

/-- The documented shape: one assertion, at most one result buffer, and one return line, at the
end. -/
def Documented (roles : List Role) : Prop :=
  roles.count .assertion = 1 ∧ roles.count .declaration ≤ 1 ∧ roles.count .delivery = 1 ∧
    roles.getLast? = some .delivery

instance decidableDocumented (roles : List Role) : Decidable (Documented roles) :=
  inferInstanceAs (Decidable (_ ∧ _))

/-- Nothing is set twice, and nothing follows a return line. -/
def Unrepeated (roles : List Role) : Prop :=
  roles.count .assertion ≤ 1 ∧ roles.count .declaration ≤ 1 ∧ .delivery ∉ roles.dropLast

instance decidableUnrepeated (roles : List Role) : Decidable (Unrepeated roles) :=
  inferInstanceAs (Decidable (_ ∧ _))

/-- What is there at least once is documented if it is not repeated. -/
theorem documented_iff {roles : List Role} (ha : .assertion ∈ roles) (hd : .delivery ∈ roles) :
    Documented roles ↔ Unrepeated roles := by
  have hone : 1 ≤ roles.count .assertion := List.one_le_count_iff.mpr ha
  unfold Documented Unrepeated
  obtain ⟨init, last, rfl⟩ :=
    (List.eq_nil_or_concat roles).resolve_left (List.ne_nil_of_mem hd)
  rw [List.concat_eq_append, List.dropLast_concat, List.getLast?_concat, Option.some.injEq]
  rw [List.concat_eq_append] at hone hd
  constructor
  · rintro ⟨hassert, hdeclare, hcount, rfl⟩
    refine ⟨hassert.le, hdeclare, ?_⟩
    rw [List.count_append, List.count_singleton_self] at hcount
    exact List.count_eq_zero.mp (by omega)
  · rintro ⟨hassert, hdeclare, hinit⟩
    obtain rfl : Role.delivery = last := by simpa [hinit] using hd
    refine ⟨le_antisymm hassert hone, hdeclare, ?_, rfl⟩
    rw [List.count_append, List.count_singleton_self, List.count_eq_zero.mpr hinit]

theorem isPrefixOf_of_some {p l rest : Text} (h : p.isPrefixOf? l = some rest) :
    p.isPrefixOf l = true := by
  rw [← List.isSome_isPrefixOf?_eq_isPrefixOf, h]
  rfl

theorem isPrefixOf_of_none {p l : Text} (h : p.isPrefixOf? l = none) : p.isPrefixOf l = false := by
  rw [← List.isSome_isPrefixOf?_eq_isPrefixOf, h]
  rfl

theorem assignment?_eq_some {s target value : Text}
    (h : Body.assignment? s = some (target, value)) :
    s = assignment target value ∧ cut " = ".toList target = none := by
  obtain ⟨t, hs, hc⟩ := Option.bind_eq_some_iff.mp h
  obtain ⟨ht, hnone⟩ := cut_eq_some (by decide) hc
  refine ⟨?_, hnone⟩
  rw [← List.append_eq_of_isSuffixOf?_eq_some hs, ht, assignment]
  simp

theorem Declares.not_copy {name l : Text} (h : Declares name length l) :
    ¬".to_vec();".toList <:+ l := by
  obtain ⟨_, written, _, rfl⟩ := h
  intro hcopy
  have hends : "];".toList <:+ "let mut ".toList ++
      assignment name ("vec![0.0_f64; ".toList ++ written ++ [']']) := by
    refine ⟨"let mut ".toList ++ name ++ " = ".toList ++ "vec![0.0_f64; ".toList ++ written, ?_⟩
    simp [assignment]
  exact absurd (List.suffix_of_suffix_length_le hends hcopy (by decide)) (by decide)

namespace Body

variable {b b' : Body} {l rest : Text}

/-- All that a line can say, and how it shows. -/
inductive Says (b : Body) (l : Text) : Body → Prop where
  | assertion (hrole : role b.data l = .assertion) (form : Asserts b.data length l) :
      Says b l { b with inputLength := some length }
  | copy (hrole : role b.data l = .copy)
      (form : l = "let mut ".toList ++ assignment b.data (b.data ++ ".to_vec()".toList)) :
      Says b l b
  | declaration {name : Text} (hrole : role b.data l = .declaration)
      (form : Declares name length l) :
      Says b l { b with out := some (name, length) }
  | binding (hrole : role b.data l = .binding)
      (form : ∃ name value, l = "let ".toList ++ assignment name value)
      (names : Std.HashMap String Nat) (instrs : Array Instr) :
      Says b l { b with names, instrs }
  | data (hrole : role b.data l = .delivery) (form : l = b.data) :
      Says b l { b with returns := some .data }
  | out (hrole : role b.data l = .delivery) (other : l ≠ b.data)
      (form : b.out = some (l, length)) : Says b l { b with returns := some .out }
  | store (hrole : role b.data l = .store) (form : ∃ target value, l = assignment target value)
      (instrs : Array Instr) : Says b l { b with instrs }

theorem asserts_of_assertLength (h : b.assertLength rest = .ok b') :
    ∃ length, Asserts b.data length ("assert_eq!(".toList ++ rest) ∧
      b' = { b with inputLength := some length } := by
  unfold assertLength at h
  split at h
  · rename_i written hwritten
    split at h
    · rename_i length hlength
      cases h
      exact ⟨length, ⟨written, hlength, by rw [between_eq_some hwritten]⟩, rfl⟩
    · cases h
  · cases h

theorem declares_of_declare (h : b.declare rest = .ok b') :
    (rest = assignment b.data (b.data ++ ".to_vec()".toList) ∧ b' = b) ∨
      ∃ name length, Declares name length ("let mut ".toList ++ rest) ∧
        b' = { b with out := some (name, length) } := by
  unfold declare at h
  split at h
  · rename_i name value hsides
    obtain ⟨hrest, hname⟩ := assignment?_eq_some hsides
    split at h
    · rename_i hcopy
      obtain ⟨rfl, rfl⟩ := hcopy
      cases h
      exact .inl ⟨hrest, rfl⟩
    · split at h
      · rename_i written hwritten
        split at h
        · rename_i length hlength
          cases h
          refine .inr ⟨name, length, ⟨hname, written, hlength, ?_⟩, rfl⟩
          rw [hrest, between_eq_some hwritten]
        · cases h
      · cases h
  · cases h

theorem sides_of_bindName (h : b.bindName rest = .ok b') :
    ∃ name value names instrs, rest = assignment name value ∧ b' = { b with names, instrs } := by
  unfold bindName at h
  split at h
  · rename_i name value hsides
    dsimp only at h
    split at h
    · cases h
    · obtain ⟨x, _, h⟩ := ok_of_bind h
      cases h
      exact ⟨name, value, _, _, (assignment?_eq_some hsides).1, rfl⟩
  · cases h

theorem instrs_of_assign (h : b.assign target value = .ok b') :
    ∃ instrs, b' = { b with instrs } := by
  unfold assign at h
  obtain ⟨cell, _, h⟩ := ok_of_bind h
  obtain ⟨source, _, h⟩ := ok_of_bind h
  cases h
  exact ⟨_, rfl⟩

theorem out_of_any (h : (b.out.any fun o => l = o.1) = true) :
    ∃ length, b.out = some (l, length) := by
  cases ho : b.out with
  | none =>
    rw [ho] at h
    cases h
  | some o =>
    rw [ho] at h
    have hl : l = o.1 := of_decide_eq_true h
    exact ⟨o.2, by rw [hl]⟩

theorem says_of_declare (hassert : "assert_eq!(".toList.isPrefixOf? l = none)
    (hmut : "let mut ".toList.isPrefixOf? l = some rest) (h : b.declare rest = .ok b') :
    b.Says l b' := by
  have hl := List.append_eq_of_isPrefixOf?_eq_some hmut
  have hrole : role b.data l =
      if ".to_vec();".toList.isSuffixOf l then .copy else .declaration := by
    rw [role, isPrefixOf_of_none hassert, isPrefixOf_of_some hmut]
    rfl
  rcases declares_of_declare h with ⟨hrest, hb⟩ | ⟨name, length, hform, rfl⟩
  · have hcopy : l = "let mut ".toList ++ assignment b.data (b.data ++ ".to_vec()".toList) := by
      rw [← hl, hrest]
    rw [hb]
    refine .copy ?_ hcopy
    rw [hrole, if_pos]
    rw [List.isSuffixOf_iff_suffix, hcopy]
    refine ⟨"let mut ".toList ++ b.data ++ " = ".toList ++ b.data, ?_⟩
    simp [assignment]
  · rw [hl] at hform
    refine .declaration ?_ hform
    rw [hrole, if_neg]
    rw [List.isSuffixOf_iff_suffix]
    exact hform.not_copy

/-- A line that is accepted says something of the kind that its role tells. -/
theorem says_of_statement (hout : ∀ o ∈ b.out, cut " = ".toList o.1 = none)
    (h : b.statement l = .ok b') : b.Says l b' := by
  unfold statement at h
  split at h
  · rename_i rest hassert
    have hrole : role b.data l = .assertion := by
      rw [role, isPrefixOf_of_some hassert]
      rfl
    obtain ⟨length, hform, rfl⟩ := asserts_of_assertLength h
    rw [List.append_eq_of_isPrefixOf?_eq_some hassert] at hform
    exact .assertion hrole hform
  rename_i hassert
  split at h
  · rename_i rest hmut
    exact says_of_declare hassert hmut h
  rename_i hmut
  split at h
  · rename_i rest hlet
    have hrole : role b.data l = .binding := by
      rw [role, isPrefixOf_of_none hassert, isPrefixOf_of_none hmut, isPrefixOf_of_some hlet]
      rfl
    obtain ⟨name, value, names, instrs, hrest, rfl⟩ := sides_of_bindName h
    refine .binding hrole ⟨name, value, ?_⟩ names instrs
    rw [← List.append_eq_of_isPrefixOf?_eq_some hlet, hrest]
  rename_i hlet
  -- Without a keyword the line is a name or an assignment.
  have hrole : role b.data l =
      if (cut " = ".toList l).isNone || l = b.data then .delivery else .store := by
    rw [role, isPrefixOf_of_none hassert, isPrefixOf_of_none hmut, isPrefixOf_of_none hlet]
    rfl
  split at h
  · rename_i hdata
    cases h
    exact .data (by rw [hrole]; simp [hdata]) hdata
  rename_i hdata
  split at h
  · rename_i hany
    cases h
    obtain ⟨length, ho⟩ := out_of_any hany
    refine .out ?_ hdata ho
    rw [hrole, hout _ ho]
    rfl
  split at h
  · rename_i target value hsides
    have hl := (assignment?_eq_some hsides).1
    have hsome : cut " = ".toList l ≠ none := by
      rw [hl, assignment, List.append_assoc, List.append_assoc]
      exact cut_append_ne_none _ _ _
    obtain ⟨instrs, rfl⟩ := instrs_of_assign h
    refine .store ?_ ⟨target, value, hl⟩ instrs
    rw [hrole, if_neg]
    simp only [Bool.or_eq_true, Option.isNone_iff_eq_none, decide_eq_true_eq, not_or]
    exact ⟨hsome, hdata⟩
  · cases h

end Body

theorem lastOf_snoc (data : Text) (r : Role) (ls : List Text) (l : Text) :
    lastOf data r (ls ++ [l]) = if role data l = r then some l else lastOf data r ls := by
  unfold lastOf
  rw [List.filter_append]
  split
  · rename_i hr
    rw [List.filter_cons_of_pos (by simpa using hr), List.filter_nil, List.getLast?_concat]
  · rename_i hr
    rw [List.filter_cons_of_neg (by simpa using hr), List.filter_nil, List.append_nil]

theorem lastOf_of_role {data l : Text} (h : role data l = r) (ls : List Text) :
    lastOf data r (ls ++ [l]) = some l := by
  rw [lastOf_snoc, if_pos h]

theorem lastOf_of_ne {data l : Text} (h : role data l ≠ r) (ls : List Text) :
    lastOf data r (ls ++ [l]) = lastOf data r ls := by
  rw [lastOf_snoc, if_neg h]

theorem role_mem_of_lastOf {data l : Text} {ls : List Text} (h : lastOf data r ls = some l) :
    r ∈ ls.map (role data) := by
  have hm := List.mem_filter.mp (List.mem_of_getLast? h)
  exact List.mem_map.mpr ⟨l, hm.1, of_decide_eq_true hm.2⟩

/-- The buffer that a return line names. -/
def delivered (data l : Text) : Buffer :=
  if l = data then .data else .out

theorem exists_of_rel {r : α → β → Prop} {x : Option α} {o : Option β} (h : Option.Rel r x o)
    (hx : x = some a) : ∃ y ∈ o, r a y := by
  cases h with
  | some hr =>
    cases hx
    exact ⟨_, rfl, hr⟩
  | none => cases hx

/-- What is known of a body is what the last line of each role has said. -/
structure Body.Told (data : Text) (before : List Text) (b : Body) : Prop where
  parameter : b.data = data
  length : Option.Rel (Asserts data) b.inputLength (lastOf data .assertion before)
  out : Option.Rel (fun o => Declares o.1 o.2) b.out (lastOf data .declaration before)
  returns : b.returns = (lastOf data .delivery before).map (delivered data)
  forms : Successive (HasForm data) before

namespace Body

variable {b b' : Body} {data l : Text} {before : List Text}

theorem told_ofParameter (data : Text) : Told data [] (ofParameter data) where
  parameter := rfl
  length := .none
  out := .none
  returns := rfl
  forms := .nil

/-- The length in force is that of the last assertion. -/
theorem Told.asserts (h : Told data before b) {length : Nat} (hl : b.inputLength = some length) :
    ∃ l ∈ lastOf data .assertion before, Asserts data length l :=
  exists_of_rel h.length hl

/-- The result buffer in force is that of the last declaration. -/
theorem Told.declares (h : Told data before b) (ho : b.out = some o) :
    ∃ l ∈ lastOf data .declaration before, Declares o.1 o.2 l := by
  obtain ⟨l, hl, hform⟩ := exists_of_rel h.out ho
  exact ⟨l, hl, hform⟩

/-- The buffer that is returned is that of the last return line. -/
theorem Told.delivers (h : Told data before b) {buffer : Buffer} (hb : b.returns = some buffer) :
    ∃ l ∈ lastOf data .delivery before, buffer = delivered data l := by
  obtain ⟨l, hl, he⟩ := Option.map_eq_some_iff.mp (h.returns.symm.trans hb)
  exact ⟨l, hl, he.symm⟩

/-- A line that sets nothing. -/
theorem Told.neutral (h : Told data before b)
    (hr : ∀ r ∈ [Role.assertion, .declaration, .delivery], role data l ≠ r)
    (hf : HasForm data before l) (names : Std.HashMap String Nat) (instrs : Array Instr) :
    Told data (before ++ [l]) { b with names, instrs } where
  parameter := h.parameter
  length := by
    rw [lastOf_of_ne (hr _ (by decide))]
    exact h.length
  out := by
    rw [lastOf_of_ne (hr _ (by decide))]
    exact h.out
  returns := by
    rw [lastOf_of_ne (hr _ (by decide))]
    exact h.returns
  forms := h.forms.snoc hf

theorem Told.asserted {length : Nat} (h : Told data before b) (hr : role data l = .assertion)
    (hf : Asserts data length l) :
    Told data (before ++ [l]) { b with inputLength := some length } where
  parameter := h.parameter
  length := by
    rw [lastOf_of_role hr]
    exact .some hf
  out := by
    rw [lastOf_of_ne (by rw [hr]; decide)]
    exact h.out
  returns := by
    rw [lastOf_of_ne (by rw [hr]; decide)]
    exact h.returns
  forms := h.forms.snoc (by rw [HasForm, hr]; exact ⟨length, hf⟩)

theorem Told.redeclared {name : Text} {length : Nat} (h : Told data before b)
    (hr : role data l = .declaration) (hf : Declares name length l) :
    Told data (before ++ [l]) { b with out := some (name, length) } where
  parameter := h.parameter
  length := by
    rw [lastOf_of_ne (by rw [hr]; decide)]
    exact h.length
  out := by
    rw [lastOf_of_role hr]
    exact .some hf
  returns := by
    rw [lastOf_of_ne (by rw [hr]; decide)]
    exact h.returns
  forms := h.forms.snoc (by rw [HasForm, hr]; exact ⟨name, length, hf⟩)

theorem Told.returned (h : Told data before b) (hr : role data l = .delivery)
    (hf : HasForm data before l) :
    Told data (before ++ [l]) { b with returns := some (delivered data l) } where
  parameter := h.parameter
  length := by
    rw [lastOf_of_ne (by rw [hr]; decide)]
    exact h.length
  out := by
    rw [lastOf_of_ne (by rw [hr]; decide)]
    exact h.out
  returns := by
    rw [lastOf_of_role hr]
    rfl
  forms := h.forms.snoc hf

/-- A line changes only what its role stands for. -/
theorem Told.step (h : Told data before b) (hs : b.statement l = .ok b') :
    Told data (before ++ [l]) b' := by
  have hsays := says_of_statement (fun o ho => (h.declares ho).elim fun _ hd => hd.2.1) hs
  obtain rfl := h.parameter
  cases hsays with
  | assertion hrole form => exact h.asserted hrole form
  | copy hrole form =>
    exact h.neutral (by rw [hrole]; decide) (by rw [HasForm, hrole]; exact form) b.names b.instrs
  | declaration hrole form => exact h.redeclared hrole form
  | binding hrole form names instrs =>
    exact h.neutral (by rw [hrole]; decide) (by rw [HasForm, hrole]; exact form) names instrs
  | data hrole form =>
    have hreturned := h.returned hrole (by rw [HasForm, hrole]; exact .inl form)
    rwa [delivered, if_pos form] at hreturned
  | out hrole other form =>
    have hreturned := h.returned hrole (by rw [HasForm, hrole]; exact .inr ⟨_, h.declares form⟩)
    rwa [delivered, if_neg other] at hreturned
  | store hrole form instrs =>
    exact h.neutral (by rw [hrole]; decide) (by rw [HasForm, hrole]; exact form) b.names instrs

theorem Told.run (h : Told data before b) {ls : List Text}
    (hs : ls.foldlM Body.statement b = .ok b') : Told data (before ++ ls) b' := by
  induction ls generalizing b before with
  | nil =>
    cases hs
    rwa [List.append_nil]
  | cons l ls ih =>
    rw [List.foldlM_cons] at hs
    obtain ⟨b₁, hl, hrest⟩ := ok_of_bind hs
    have hrun := ih (h.step hl) hrest
    rwa [List.append_assoc, List.singleton_append] at hrun

theorem settings_of_program (h : b.program = .ok p) :
    b.inputLength = some p.inputLength ∧ b.out.map (·.2) = p.outLength ∧
      b.returns = some p.returns := by
  unfold program at h
  split at h
  · rename_i hlength
    split at h
    · rename_i hreturns
      cases h
      exact ⟨hlength, rfl, hreturns⟩
    · cases h
  · cases h

end Body

namespace Reader

variable {r r' : Reader} {b b' : Body} {ls : List Text}

/-- Reading goes from line to line that stands for something. -/
theorem lines_significant (h : r.lines count ls = .ok r') :
    ((ls.map Text.trim).filter fun l => ¬l.Silent).foldlM Reader.line r = .ok r' := by
  induction ls generalizing r count with
  | nil =>
    rw [lines] at h
    cases h
    rfl
  | cons raw ls ih =>
    rw [lines] at h
    rw [List.map_cons]
    split at h
    · rename_i hfiller
      rw [List.filter_cons_of_neg (by simp [isFiller_iff.mp hfiller])]
      exact ih h
    · rename_i hfiller
      rw [List.filter_cons_of_pos (by simp [mt isFiller_iff.mpr hfiller]), List.foldlM_cons]
      split at h
      · rename_i hline
        rw [hline]
        exact ih h
      · cases h

/-- Nothing follows the end. -/
theorem nil_of_closed (h : ls.foldlM Reader.line (.closed b) = .ok r') :
    ls = [] ∧ r' = .closed b := by
  cases ls with
  | nil =>
    cases h
    exact ⟨rfl, rfl⟩
  | cons l ls =>
    rw [List.foldlM_cons] at h
    cases h

/-- From the header to the end there are statements, and then one brace. -/
theorem body_of_closed (h : ls.foldlM Reader.line (.body b) = .ok (.closed b')) :
    ∃ body, ls = body ++ [['\x7d']] ∧ (∀ l ∈ body, ¬"pub fn ".toList <+: l) ∧ ['\x7d'] ∉ body ∧
      body.foldlM Body.statement b = .ok b' := by
  induction ls generalizing b with
  | nil => cases h
  | cons l ls ih =>
    rw [List.foldlM_cons] at h
    obtain ⟨r, hl, hrest⟩ := ok_of_bind h
    unfold Reader.line at hl
    dsimp only at hl
    split at hl
    · obtain ⟨name, _, hl⟩ := ok_of_bind hl
      cases hl
    · rename_i hfn
      have hno : ¬"pub fn ".toList <+: l := by
        rintro ⟨rest, rfl⟩
        rw [isPrefixOf?_append] at hfn
        cases hfn
      split at hl
      · rename_i hbrace
        cases hl
        obtain ⟨rfl, he⟩ := nil_of_closed hrest
        cases he
        exact ⟨[], by rw [hbrace]; rfl, List.forall_mem_nil _, List.not_mem_nil, rfl⟩
      · rename_i hbrace
        obtain ⟨b₁, hb, hl⟩ := ok_of_bind hl
        cases hl
        obtain ⟨body, rfl, hheaders, hbraces, hrun⟩ := ih hrest
        refine ⟨l :: body, rfl, List.forall_mem_cons.mpr ⟨hno, hheaders⟩, ?_, ?_⟩
        · exact List.not_mem_cons_of_ne_of_not_mem (Ne.symm hbrace) hbraces
        · rw [List.foldlM_cons, hb]
          exact hrun

theorem isHeader_of_parameter {rest data : Text} (h : parameter rest = .ok data) :
    IsHeader data ("pub fn ".toList ++ rest) := by
  unfold parameter at h
  split at h
  · rename_i written tail hcut
    cases h
    obtain ⟨⟨title, after⟩, hopen, hmark⟩ := Option.bind_eq_some_iff.mp hcut
    obtain ⟨hrest, htitle⟩ := cut_eq_some (by decide) hopen
    obtain ⟨hafter, hwritten⟩ := cut_eq_some (by decide) hmark
    refine ⟨title, written, tail, htitle, hwritten, rfl, ?_⟩
    rw [hrest, show after = _ from hafter]
    rfl
  · cases h

/-- The first line is a header. -/
theorem header_of_start {l : Text} (h : Reader.start.line l = .ok r) :
    ∃ data, IsHeader data l ∧ r = .body (.ofParameter data) := by
  unfold Reader.line at h
  dsimp only at h
  split at h
  · rename_i rest hfn
    obtain ⟨data, hdata, h⟩ := ok_of_bind h
    cases h
    refine ⟨data, ?_, rfl⟩
    rw [← List.append_eq_of_isPrefixOf?_eq_some hfn]
    exact isHeader_of_parameter hdata
  · cases h

/-- Only the end gives a program. -/
theorem closed_of_outcome (h : r.outcome n = .ok p) :
    ∃ b, r = .closed b ∧ b.program = .ok p := by
  cases r with
  | start => cases h
  | body b => cases h
  | closed b =>
    refine ⟨b, rfl, ?_⟩
    unfold outcome at h
    cases hp : b.program with
    | ok q =>
      rw [finish, hp] at h
      cases h
      rfl
    | error fault =>
      rw [finish, hp] at h
      cases h

end Reader

/-- The program of a text comes from the body between its header and its brace. -/
theorem framed_of_parse {source : Text} (h : parse source = .ok p) :
    ∃ data body b, Framed (significant source) data body ∧ Body.Told data body b ∧
      b.program = .ok p := by
  rw [parse_eq] at h
  obtain ⟨r, hlines, hend⟩ := ok_of_bind h
  obtain ⟨b, rfl, hprogram⟩ := Reader.closed_of_outcome hend
  have hread := Reader.lines_significant hlines
  rw [← significant] at hread
  cases hs : significant source with
  | nil =>
    rw [hs] at hread
    cases hread
  | cons header ls =>
    rw [hs, List.foldlM_cons] at hread
    obtain ⟨_, hfirst, hrest⟩ := ok_of_bind hread
    obtain ⟨data, hheader, rfl⟩ := Reader.header_of_start hfirst
    obtain ⟨body, rfl, hheaders, hbraces, hrun⟩ := Reader.body_of_closed hrest
    exact ⟨data, body, b, ⟨⟨header, hheader, rfl⟩, hheaders, hbraces⟩,
      (Body.told_ofParameter data).run hrun, hprogram⟩

/-- A text that is read is framed by one header and one brace, and its lines have the forms of their
roles. There is an assertion and a return line, and what the last line of each role says is what
holds of the program. The shape is the documented one if and only if nothing is repeated. -/
theorem parse_shape {source : Text} {p : Program} (h : parse source = .ok p) :
    ∃ data body, Framed (significant source) data body ∧ Successive (HasForm data) body ∧
      (∃ l ∈ lastOf data .assertion body, Asserts data p.inputLength l) ∧
      Option.Rel (fun length l => ∃ name, Declares name length l) p.outLength
        (lastOf data .declaration body) ∧
      (∃ l ∈ lastOf data .delivery body, p.returns = delivered data l) ∧
      (Documented (body.map (role data)) ↔ Unrepeated (body.map (role data))) := by
  obtain ⟨data, body, b, hframed, htold, hprogram⟩ := framed_of_parse h
  obtain ⟨hlength, hout, hreturns⟩ := Body.settings_of_program hprogram
  obtain ⟨assertion, hassertion, hasserts⟩ := htold.asserts hlength
  obtain ⟨delivery, hdelivery, hdelivers⟩ := htold.delivers hreturns
  have hdeclares : Option.Rel (fun length l => ∃ name, Declares name length l) p.outLength
      (lastOf data .declaration body) := by
    have hrel := htold.out
    rw [← hout]
    generalize lastOf data .declaration body = last at hrel
    generalize b.out = out at hrel
    cases hrel with
    | some hform => exact .some ⟨_, hform⟩
    | none => exact .none
  exact ⟨data, body, hframed, htold.forms, ⟨assertion, hassertion, hasserts⟩, hdeclares,
    ⟨delivery, hdelivery, hdelivers⟩,
    documented_iff (role_mem_of_lastOf hassertion) (role_mem_of_lastOf hdelivery)⟩

/-- The lines of a function with the given body. -/
def function (body : List Text) : List Text :=
  "pub fn f(v: &[f64]) -> Vec<f64> \x7b".toList :: (body.map indent ++ [['\x7d']])

/-- The body is what stands in the text of a function, if it has no fillers. -/
theorem body_of_framed {ls body : List Text} {data : Text}
    (hls : ∀ l ∈ ls, '\n' ∉ l ∧ trim l = l ∧ ¬l.Silent)
    (h : Framed (significant (Text.joined (function ls))) data body) : body = ls := by
  have hbreaks : ∀ l ∈ function ls, '\n' ∉ l := by
    intro l hl
    rcases List.mem_cons.mp hl with rfl | hl
    · decide
    rcases List.mem_append.mp hl with hl | hl
    · obtain ⟨s, hs, rfl⟩ := List.mem_map.mp hl
      simpa [indent] using (hls s hs).1
    · rw [List.mem_singleton.mp hl]
      decide
  have htrim : (ls.map indent).map trim = ls := by
    rw [List.map_map]
    exact (List.map_congr_left fun l hl => (hls l hl).2.1).trans (List.map_id ls)
  have hkeep : ls.filter (fun l => ¬l.Silent) = ls :=
    List.filter_eq_self.mpr fun l hl => decide_eq_true (hls l hl).2.2
  obtain ⟨header, _, he⟩ := h.lines
  rw [significant, Text.lines_flatMap _ hbreaks, function, List.map_cons, List.map_append, htrim,
    List.filter_cons_of_pos (by decide), List.filter_append, hkeep] at he
  exact (List.append_left_inj _).mp (List.cons.inj he).2.symm

/-- All that can be set is set twice, and a return line is followed by other lines. -/
def overwriting : List Text :=
  ["assert_eq!(v.len(), 2);", "let mut w = vec![0.0_f64; 1];", "w",
    "let mut w = vec![0.0_f64; 2];", "v", "assert_eq!(v.len(), 1);"].map String.toList

/-- The text is read, but its shape is not the documented one. -/
theorem overwriting_accepted :
    (∃ p, parse (Text.joined (function overwriting)) = .ok p ∧ p.inputLength = 1 ∧
      p.outLength = some 2 ∧ p.returns = .data ∧ p.call [7] = .ok [7]) ∧
    ∀ data body, Framed (significant (Text.joined (function overwriting))) data body →
      body.map (role data) =
        [.assertion, .declaration, .delivery, .declaration, .delivery, .assertion] ∧
      ¬Documented (body.map (role data)) := by
  constructor
  · rw [parse_joined (by decide)]
    exact ⟨_, rfl, rfl, rfl, rfl, rfl⟩
  · intro data body hframed
    have hroles : body.map (role data) =
        [.assertion, .declaration, .delivery, .declaration, .delivery, .assertion] := by
      rw [body_of_framed (by decide) hframed]
      rfl
    exact ⟨hroles, by rw [hroles]; decide⟩

/-- Each setting is made once. -/
def plain : List Text :=
  ["assert_eq!(v.len(), 1);", "let mut v = v.to_vec();", "let mut w = vec![0.0_f64; 2];",
    "w"].map String.toList

theorem parse_plain : parse (Text.joined (function plain)) = .ok ⟨1, some 2, .out, 0, #[]⟩ := by
  rw [parse_joined (by decide)]
  rfl

theorem parse_shape_plain : ∃ p, parse (Text.joined (function plain)) = .ok p ∧
    ∃ data body, Framed (significant (Text.joined (function plain))) data body ∧
      (∃ l ∈ lastOf data .delivery body, p.returns = delivered data l) ∧
      Documented (body.map (role data)) := by
  obtain ⟨data, body, hframed, _, _, _, hreturns, hdocumented⟩ := parse_shape parse_plain
  refine ⟨_, parse_plain, data, body, hframed, hreturns, hdocumented.mpr ?_⟩
  have hroles : body.map (role data) = [.assertion, .copy, .declaration, .delivery] := by
    rw [body_of_framed (by decide) hframed]
    rfl
  rw [hroles]
  decide

end Program

end FlatFourier
