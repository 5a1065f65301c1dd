import FlatFourier.Proofs.Safety

namespace FlatFourier

/-- Faults that are found when the text has ended. -/
def LineFault.atEnd : LineFault → Bool
  | missingBrace | missingLength | missingReturn => true
  | _ => false

/-- The error in a text after a line has been put in behind the first `k` lines, if the new line
stands for nothing. -/
def Error.behind (k : Nat) : Error → Error
  | badLine line fault => badLine (if k < line ∨ fault.atEnd then line + 1 else line) fault
  | e => e

/-- A line, without the blanks around it, that is empty, a remark or an attribute. -/
def Text.Silent (l : Text) : Prop :=
  l = [] ∨ "//".toList <+: l ∨ "#[".toList <+: l

instance decidableSilent (l : Text) : Decidable l.Silent :=
  inferInstanceAs (Decidable (_ ∨ _))

/-- The text of lines that end in newlines. -/
abbrev Text.joined (ls : List Text) : Text :=
  ls.flatMap (· ++ ['\n'])

namespace Text

theorem trimEnd_append {s t : Text} (ht : ∀ c ∈ t, isBlank c = true) :
    trimEnd (s ++ t) = trimEnd s := by
  rw [trimEnd, List.reverse_append,
    List.dropWhile_append_of_pos fun c hc => ht c (by simpa using hc)]
  rfl

/-- Blanks around a text are trimmed off with its own. -/
theorem trim_blanks {lead trail : Text} (s : Text) (hl : ∀ c ∈ lead, isBlank c = true)
    (ht : ∀ c ∈ trail, isBlank c = true) : trim (lead ++ s ++ trail) = trim s := by
  rw [trim, trimStart, List.append_assoc, List.dropWhile_append_of_pos hl, List.dropWhile_append]
  split
  · rename_i hnil
    have hs : s.dropWhile isBlank = [] := List.isEmpty_iff.mp hnil
    have htrail : trail.dropWhile isBlank = [] := List.dropWhile_eq_nil_iff.mpr ht
    rw [htrail, trim, trimStart, hs]
  · rw [trimEnd_append ht]
    rfl

end Text

theorem mapError_bind (x : Except ε α) (f : α → Except ε β) (g : ε → ε') :
    (x >>= f).mapError g = x.mapError g >>= fun a => (f a).mapError g := by
  cases x with
  | ok a => rfl
  | error e => rfl

namespace Program

/-- A step that finds no fault of those that only the end of the text shows. -/
def Local (step : Except LineFault α) : Prop :=
  ∀ fault, step = .error fault → fault.atEnd = false

namespace Local

theorem ok (a : α) : Local (.ok a) := by
  intro fault h
  cases h

theorem error (h : fault.atEnd = false) : Local (.error fault : Except LineFault α) := by
  intro fault' he
  cases he
  exact h

theorem bind {step : Except LineFault α} {rest : α → Except LineFault β} (h : Local step)
    (hr : ∀ a, Local (rest a)) : Local (step >>= rest) := by
  cases step with
  | ok a => exact hr a
  | error fault => exact .error (h fault rfl)

end Local

namespace Body

variable (b : Body)

theorem local_operand (s : Text) : Local (b.operand s) := by
  unfold operand
  split
  · exact .ok _
  · split
    · exact .ok _
    · exact .error rfl

theorem local_cell (s : Text) : Local (b.cell s) := by
  have hnamed : ∀ name, Local (b.bufferNamed name) := by
    intro name
    unfold bufferNamed
    split
    · exact .ok _
    · split
      · exact .ok _
      · exact .error rfl
  unfold cell
  split
  · refine (hnamed _).bind fun buffer => ?_
    split
    · exact .ok _
    · exact .error rfl
  · exact .error rfl

theorem local_expression (target : Nat) (s : Text) : Local (b.expression target s) := by
  unfold expression
  split
  · exact (b.local_operand _).bind fun _ => .ok _
  · split
    · exact (b.local_operand _).bind fun _ => .ok _
    · split
      · exact (b.local_cell _).bind fun _ => .ok _
      · split
        · split
          · exact (b.local_operand _).bind fun _ => (b.local_operand _).bind fun _ => .ok _
          · exact .error rfl
        · exact (b.local_operand _).bind fun _ => .ok _
        · exact .error rfl

theorem local_bindName (s : Text) : Local (b.bindName s) := by
  unfold bindName
  split
  · dsimp only
    split
    · exact .error rfl
    · exact (b.local_expression _ _).bind fun _ => .ok _
  · exact .error rfl

theorem local_declare (s : Text) : Local (b.declare s) := by
  unfold declare
  split
  · split
    · exact .ok _
    · split
      · split
        · exact .ok _
        · exact .error rfl
      · exact .error rfl
  · exact .error rfl

theorem local_assertLength (s : Text) : Local (b.assertLength s) := by
  unfold assertLength
  split
  · split
    · exact .ok _
    · exact .error rfl
  · exact .error rfl

theorem local_statement (s : Text) : Local (b.statement s) := by
  unfold statement
  split
  · exact b.local_assertLength _
  · split
    · exact b.local_declare _
    · split
      · exact b.local_bindName _
      · split
        · exact .ok _
        · split
          · exact .ok _
          · split
            · exact (b.local_cell _).bind fun _ => (b.local_operand _).bind fun _ => .ok _
            · exact .error rfl

end Body

namespace Reader

variable {r : Reader} {ls : List Text} {count k : Nat}

theorem local_line (r : Reader) (s : Text) : Local (r.line s) := by
  have hparameter : ∀ rest, Local (parameter rest) := by
    intro rest
    unfold parameter
    split
    · exact .ok _
    · exact .error rfl
  unfold Reader.line
  split
  · exact .error rfl
  · split
    · exact (hparameter _).bind fun _ => .ok _
    · exact .error rfl
  · split
    · exact (hparameter _).bind fun _ => .error rfl
    · split
      · exact .ok _
      · exact (Body.local_statement _ s).bind fun _ => .ok _

/-- What is missing at the end is not known before. -/
theorem atEnd_of_finish (h : r.finish = .error fault) : fault.atEnd = true := by
  cases r with
  | closed b =>
    have h : b.program = .error fault := h
    unfold Body.program at h
    split at h
    · split at h
      · cases h
      · cases h
        rfl
    · cases h
      rfl
  | _ =>
    cases h
    rfl

theorem isFiller_iff {l : Text} : isFiller l = true ↔ l.Silent := by
  rw [isFiller, Bool.or_eq_true, Bool.or_eq_true, List.isEmpty_iff, List.isPrefixOf_iff_prefix,
    List.isPrefixOf_iff_prefix, or_assoc]
  rfl

/-- Reads one line as it stands in the text. -/
def next (r : Reader) (raw : Text) : Except LineFault Reader :=
  if isFiller raw.trim then .ok r else r.line raw.trim

theorem local_next (r : Reader) (raw : Text) : Local (r.next raw) := by
  unfold next
  split
  · exact .ok r
  · exact r.local_line raw.trim

theorem lines_cons (r : Reader) (count : Nat) (raw : Text) (rest : List Text) :
    r.lines count (raw :: rest) =
      (r.next raw).mapError (.badLine (count + 1)) >>= fun r' => r'.lines (count + 1) rest := by
  rw [lines, next]
  split
  · rfl
  · cases r.line raw.trim with
    | ok r' => rfl
    | error fault => rfl

theorem lines_append (r : Reader) (count : Nat) (before after : List Text) :
    r.lines count (before ++ after) =
      r.lines count before >>= fun r' => r'.lines (count + before.length) after := by
  induction before generalizing r count with
  | nil => rfl
  | cons raw before ih =>
    rw [List.cons_append, lines_cons, lines_cons]
    cases r.next raw with
    | error fault => rfl
    | ok r' =>
      have hcount : count + (raw :: before).length = count + 1 + before.length := by
        rw [List.length_cons]
        omega
      rw [hcount]
      exact ih r' (count + 1)

/-- Lines are read by what is left of them when they are trimmed. -/
theorem lines_congr {ls' : List Text} (h : ls.map Text.trim = ls'.map Text.trim) (r : Reader)
    (count : Nat) : r.lines count ls = r.lines count ls' := by
  induction ls generalizing r count ls' with
  | nil =>
    obtain rfl : ls' = [] := by simpa using h.symm
    rfl
  | cons raw rest ih =>
    obtain ⟨raw', rest', rfl, htrim, hrest⟩ := List.map_eq_cons_iff.mp h.symm
    have hnext : r.next raw = r.next raw' := by rw [next, next, htrim]
    rw [lines_cons, lines_cons, hnext]
    congr 1
    funext r'
    exact ih hrest.symm r' (count + 1)

/-- A line put in before the lines moves their faults on by one. -/
theorem lines_later (hk : k ≤ count) (r : Reader) (ls : List Text) :
    r.lines (count + 1) ls = (r.lines count ls).mapError (.behind k) := by
  induction ls generalizing r count with
  | nil => rfl
  | cons raw rest ih =>
    rw [lines_cons, lines_cons, mapError_bind]
    cases r.next raw with
    | ok r' => exact ih (Nat.le_succ_of_le hk) r'
    | error fault =>
      have hlt : k < count + 1 := by omega
      simp [Except.mapError, Error.behind, hlt, bind, Except.bind]

/-- A line put in behind the lines does not move their faults. -/
theorem lines_earlier (hk : count + ls.length ≤ k) (r : Reader) :
    (r.lines count ls).mapError (.behind k) = r.lines count ls := by
  induction ls generalizing r count with
  | nil => rfl
  | cons raw rest ih =>
    rw [List.length_cons] at hk
    rw [lines_cons, mapError_bind]
    cases hnext : r.next raw with
    | ok r' => exact ih (by omega) r'
    | error fault =>
      have hlocal := r.local_next raw fault hnext
      have hle : ¬k < count + 1 := by omega
      simp [Except.mapError, Error.behind, hlocal, hle, bind, Except.bind]

/-- A fault in a line is found there, whatever follows. -/
theorem lines_take (h : r.lines count ls = .error (.badLine n fault)) :
    count < n ∧ r.lines count (ls.take (n - count)) = .error (.badLine n fault) := by
  induction ls generalizing r count with
  | nil => cases h
  | cons raw rest ih =>
    rw [lines_cons] at h
    cases hnext : r.next raw with
    | error fault' =>
      rw [hnext] at h
      cases h
      refine ⟨Nat.lt_succ_self _, ?_⟩
      rw [Nat.add_sub_cancel_left, List.take_succ_cons, lines_cons, hnext]
      rfl
    | ok r' =>
      rw [hnext] at h
      obtain ⟨hlt, hrest⟩ := ih h
      have hcount : n - count = n - (count + 1) + 1 := by omega
      refine ⟨by omega, ?_⟩
      rw [hcount, List.take_succ_cons, lines_cons, hnext]
      exact hrest

end Reader

/-- The program of a text of `count` lines, or what is missing at its end. -/
def Reader.outcome (r : Reader) (count : Nat) : Except Error Program :=
  r.finish.mapError (.badLine count)

def ofLines (ls : List Text) : Except Error Program :=
  Reader.start.lines 0 ls >>= fun r => r.outcome ls.length

theorem parse_eq (source : Text) : parse source = ofLines source.lines := by
  unfold parse ofLines
  dsimp only
  congr 1
  funext r
  unfold Reader.outcome
  cases r.finish with
  | ok p => rfl
  | error fault => rfl

theorem parse_joined {ls : List Text} (h : ∀ l ∈ ls, '\n' ∉ l) :
    parse (Text.joined ls) = ofLines ls := by
  rw [parse_eq, Text.lines_flatMap ls h]

theorem outcome_succ (r : Reader) (count k : Nat) :
    r.outcome (count + 1) = (r.outcome count).mapError (.behind k) := by
  unfold Reader.outcome
  cases hr : r.finish with
  | ok p => rfl
  | error fault => simp [Except.mapError, Error.behind, Reader.atEnd_of_finish hr]

theorem ofLines_filler {filler : Text} (hf : filler.trim.Silent)
    (before after : List Text) : ofLines (before ++ filler :: after) =
      (ofLines (before ++ after)).mapError (.behind before.length) := by
  have hlines : Reader.start.lines 0 (before ++ filler :: after) =
      (Reader.start.lines 0 (before ++ after)).mapError (.behind before.length) := by
    rw [Reader.lines_append, Reader.lines_append, mapError_bind, Reader.lines_earlier (by simp)]
    congr 1
    funext r
    rw [Reader.lines, if_pos (Reader.isFiller_iff.mpr hf)]
    exact Reader.lines_later (by simp) r after
  have hlength : (before ++ filler :: after).length = (before ++ after).length + 1 := by
    simp [Nat.add_assoc]
  rw [ofLines, ofLines, mapError_bind, hlines, hlength]
  congr 1
  funext r
  exact outcome_succ r _ _

theorem ofLines_congr {ls ls' : List Text} (h : ls.map Text.trim = ls'.map Text.trim) :
    ofLines ls = ofLines ls' := by
  have hlength : ls.length = ls'.length := by simpa using congrArg List.length h
  rw [ofLines, ofLines, Reader.lines_congr h, hlength]

/-- Only the lines up to that of a fault matter, unless the fault is found at the end. -/
theorem ofLines_of_take {ls ls' : List Text} (h : ofLines ls = .error (.badLine n fault))
    (hfault : fault.atEnd = false) (hls : ls'.take n = ls.take n) :
    ofLines ls' = .error (.badLine n fault) := by
  unfold ofLines at h ⊢
  cases hlines : Reader.start.lines 0 ls with
  | ok r =>
    rw [hlines] at h
    have hout : r.outcome ls.length = .error (.badLine n fault) := h
    unfold Reader.outcome at hout
    cases hr : r.finish with
    | ok p =>
      rw [hr] at hout
      cases hout
    | error fault' =>
      rw [hr] at hout
      cases hout
      rw [Reader.atEnd_of_finish hr] at hfault
      cases hfault
  | error e =>
    rw [hlines] at h
    cases h
    have htake := (Reader.lines_take hlines).2
    rw [Nat.sub_zero, ← hls] at htake
    rw [← List.take_append_drop n ls', Reader.lines_append, htake]
    rfl

open Reader in
/-- Empty lines, remarks and attributes can be put in anywhere: the program stays the same, and a
fault is reported with the line that it is in now. Blanks at the ends of a line do not count. A
fault that is not found at the end is found in every text that has the same lines up to it. -/
theorem parse_stable {ls : List Text} (h : ∀ l ∈ ls, '\n' ∉ l) :
    (∀ before after, ls = before ++ after → ∀ filler, '\n' ∉ filler →
      filler.trim = [] ∨ "//".toList <+: filler.trim ∨ "#[".toList <+: filler.trim →
      parse (Text.joined (before ++ filler :: after)) =
        (parse (Text.joined ls)).mapError (.behind before.length)) ∧
    (∀ before l after, ls = before ++ l :: after → ∀ lead trail,
      (∀ c ∈ lead ++ trail, Text.isBlank c = true ∧ c ≠ '\n') →
      parse (Text.joined (before ++ (lead ++ l ++ trail) :: after)) = parse (Text.joined ls)) ∧
    ∀ n fault, parse (Text.joined ls) = .error (.badLine n fault) → fault.atEnd = false →
      ∀ source : Text, source.lines.take n = ls.take n →
        parse source = .error (.badLine n fault) := by
  rw [parse_joined h]
  refine ⟨?_, ?_, ?_⟩
  · rintro before after rfl filler hnewline hf
    obtain ⟨hbefore, hafter⟩ := List.forall_mem_append.mp h
    rw [← ofLines_filler hf]
    apply parse_joined
    exact List.forall_mem_append.mpr ⟨hbefore, List.forall_mem_cons.mpr ⟨hnewline, hafter⟩⟩
  · rintro before l after rfl lead trail hblank
    obtain ⟨hbefore, hrest⟩ := List.forall_mem_append.mp h
    obtain ⟨hl, hafter⟩ := List.forall_mem_cons.mp hrest
    obtain ⟨hlead, htrail⟩ := List.forall_mem_append.mp hblank
    have htrim := Text.trim_blanks l (fun c hc => (hlead c hc).1) fun c hc => (htrail c hc).1
    have hmap : (before ++ (lead ++ l ++ trail) :: after).map Text.trim =
        (before ++ l :: after).map Text.trim := by
      simp only [List.map_append, List.map_cons, htrim]
    have hnewline : '\n' ∉ lead ++ l ++ trail := by
      simp only [List.mem_append, not_or]
      exact ⟨⟨fun hc => (hlead _ hc).2 rfl, hl⟩, fun hc => (htrail _ hc).2 rfl⟩
    rw [← ofLines_congr hmap]
    apply parse_joined
    exact List.forall_mem_append.mpr ⟨hbefore, List.forall_mem_cons.mpr ⟨hnewline, hafter⟩⟩
  · intro n fault herror hfault source hsource
    rw [parse_eq]
    exact ofLines_of_take herror hfault hsource

/-- An attribute stands before a function, and a line of blanks in it. A remark stands before and
behind a brace without a function, and in a text without anything else. -/
theorem parse_stable_remarks :
    (∃ p, parse (Text.joined ("#[inline]".toList :: shadowing)) = .ok p ∧
      parse (Text.joined (shadowing.take 3 ++ " \t".toList :: shadowing.drop 3)) = .ok p ∧
      parse (Text.joined shadowing) = .ok p) ∧
    parse (Text.joined ["// none".toList, ['\x7d']]) = .error (.badLine 2 .outsideFunction) ∧
    parse (Text.joined [['\x7d'], "// none".toList]) = .error (.badLine 1 .outsideFunction) ∧
    parse (Text.joined ["\t\x7d  ".toList]) = .error (.badLine 1 .outsideFunction) ∧
    parse "\x7d\npub fn".toList = .error (.badLine 1 .outsideFunction) ∧
    parse (Text.joined ["// none".toList]) = .error (.badLine 1 .missingBrace) := by
  have hshadowing : ∀ l ∈ shadowing, '\n' ∉ l := by decide
  have hbrace : ∀ l ∈ [['\x7d']], '\n' ∉ l := by decide
  have hnothing : ∀ l ∈ ([] : List Text), '\n' ∉ l := List.forall_mem_nil _
  have hlone : parse (Text.joined [['\x7d']]) = .error (.badLine 1 .outsideFunction) := rfl
  obtain ⟨hattribute, _⟩ := parse_stable hshadowing
  obtain ⟨hremark, hblank, hfirst⟩ := parse_stable hbrace
  obtain ⟨hend, _⟩ := parse_stable hnothing
  rw [hlone] at hremark hblank hfirst
  refine ⟨⟨_, ?_, ?_, parse_shadowing⟩, ?_, ?_, ?_, ?_, ?_⟩
  · exact (hattribute [] shadowing rfl "#[inline]".toList (by decide) (by decide)).trans
      (congrArg (Except.mapError _) parse_shadowing)
  · exact (hattribute _ _ (List.take_append_drop 3 shadowing).symm " \t".toList (by decide)
      (.inl rfl)).trans (congrArg (Except.mapError _) parse_shadowing)
  · exact hremark [] [['\x7d']] rfl "// none".toList (by decide) (by decide)
  · exact hremark [['\x7d']] [] rfl "// none".toList (by decide) (by decide)
  · refine hblank [] ['\x7d'] [] rfl ['\t'] "  ".toList ?_
    have hall : ['\t', ' ', ' '].all (fun c => Text.isBlank c && c != '\n') = true := rfl
    simpa using List.all_eq_true.mp hall
  · exact hfirst 1 .outsideFunction rfl rfl "\x7d\npub fn".toList rfl
  · exact hend [] [] rfl "// none".toList (by decide) (by decide)

end Program

end FlatFourier
