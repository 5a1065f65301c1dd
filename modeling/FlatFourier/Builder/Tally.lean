namespace FlatFourier

/-- A rule that may answer for an operation before a node is made. -/
inductive Rule where
  /-- An operation on constants is the constant of its value. -/
  | constantFold
  /-- Adding or subtracting zero and multiplying or dividing by one change nothing. -/
  | identity
  /-- A product with zero is zero. -/
  | absorb
  /-- Adding a negation subtracts, subtracting one adds, and a product with minus one negates. -/
  | negationFold
deriving DecidableEq, Repr

namespace Rule

def name : Rule → String
  | constantFold => "constant-fold"
  | identity => "identity"
  | absorb => "absorb"
  | negationFold => "negation-fold"

/-- The order in which the rules are tried. -/
def standard : List Rule :=
  [constantFold, identity, absorb, negationFold]

def ofName? (s : String) : Option Rule :=
  standard.find? fun rule => rule.name = s

end Rule

/-- How often each name has been counted. Any name can be, and a name that has not been counted has
no entry. -/
structure RuleCounts where
  /-- The names in the order of their first counts. -/
  entries : List (String × Nat)
  nodup : (entries.map Prod.fst).Nodup
deriving DecidableEq, Repr

namespace RuleCounts

def zero : RuleCounts := ⟨[], .nil⟩

/-- One more for a name. -/
def bump (name : String) : List (String × Nat) → List (String × Nat)
  | [] => [(name, 1)]
  | (other, n) :: rest =>
    if other = name then (name, n + 1) :: rest else (other, n) :: bump name rest

theorem map_fst_bump (name : String) (entries : List (String × Nat)) :
    (bump name entries).map Prod.fst =
      if name ∈ entries.map Prod.fst then entries.map Prod.fst
      else entries.map Prod.fst ++ [name] := by
  induction entries with
  | nil => rfl
  | cons entry rest ih =>
    obtain ⟨other, n⟩ := entry
    by_cases h : other = name
    · simp [bump, h]
    · have hne : name ≠ other := fun he => h he.symm
      simp only [bump, h, if_false, List.map_cons, ih, List.mem_cons, hne, false_or]
      split <;> rfl

theorem nodup_bump (name : String) {entries : List (String × Nat)}
    (h : (entries.map Prod.fst).Nodup) : ((bump name entries).map Prod.fst).Nodup := by
  rw [map_fst_bump]
  split
  · exact h
  · rename_i hnew
    refine List.nodup_append.mpr ⟨h, List.nodup_cons.mpr ⟨List.not_mem_nil, .nil⟩, ?_⟩
    intro a ha b hb he
    rw [he, List.mem_singleton.mp hb] at ha
    exact hnew ha

def increment (c : RuleCounts) (name : String) : RuleCounts :=
  ⟨bump name c.entries, nodup_bump name c.nodup⟩

/-- Names in the order of their code points. -/
def inOrder : List Char → List Char → Bool
  | [], _ => true
  | _ :: _, [] => false
  | c :: s, d :: t => c.toNat < d.toNat || c = d && inOrder s t

/-- The entries, the highest counts first and equal ones by name. -/
def ranked (c : RuleCounts) : List (String × Nat) :=
  c.entries.mergeSort fun a b => b.2 < a.2 || a.2 = b.2 && inOrder a.1.toList b.1.toList

end RuleCounts

structure Tally where
  /-- Nodes made. -/
  created : Nat
  /-- Operations answered by a node that was there. -/
  reused : Nat
  /-- Operations answered by a rule. -/
  simplified : Nat
  byRule : RuleCounts
  /-- Writes logged. -/
  writes : Nat
  /-- The length of the last plan. -/
  planned : Nat
deriving DecidableEq, Repr

namespace Tally

def zero : Tally where
  created := 0
  reused := 0
  simplified := 0
  byRule := .zero
  writes := 0
  planned := 0

/-- Counts an answer under the name of a rule. -/
def countAnswer (t : Tally) (name : String) : Tally :=
  { t with simplified := t.simplified + 1, byRule := t.byRule.increment name }

/-- The counts as text, a line each. -/
def report (t : Tally) : String :=
  let counts := [
    "Specialization Session Statistics:",
    s!"  Nodes created: {t.created}",
    s!"  Intern hits: {t.reused}",
    s!"  Rewrites applied: {t.simplified}",
    s!"  Writes logged: {t.writes}",
    s!"  Nodes scheduled: {t.planned}"]
  let ranked := t.byRule.ranked
  let breakdown := ranked.map fun entry => s!"    {entry.1}: {entry.2}"
  let lines := if ranked.isEmpty then counts else counts ++ "  Rewrite breakdown:" :: breakdown
  .join (lines.map (· ++ "\n"))

end Tally

end FlatFourier
