import FlatFourier.Plan
import FlatFourier.Proofs.Discipline

namespace FlatFourier.Plan

/-- Nodes each of which is new and comes behind what it needs. -/
abbrev Sequenced (needs : NodeId → List NodeId) : List NodeId → Prop :=
  Successive fun before i => i ∉ before ∧ ∀ j ∈ needs i, j ∈ before

def Visit.id : Visit → NodeId
  | enter i => i
  | leave i => i

/-- What the stack of a depth-first search keeps: a node that waits to be left has not been placed,
all above it is smaller, and what it needs has been placed or is above it. -/
def Waiting (needs : NodeId → List NodeId) (placed : List NodeId) (stack : List Visit) : Prop :=
  ∀ above (m : Nat) below, stack = above ++ .leave m :: below →
    m ∉ placed ∧ (∀ x ∈ above, x.id < m) ∧
      ∀ j : Nat, j ∈ needs m → j ∈ placed ∨ .enter j ∈ above ∨ .leave j ∈ above

/-- The node of a visit that waits for its needs. -/
def Visit.waiting? : Visit → Option NodeId
  | enter _ => none
  | leave i => some i

/-- The nodes that a depth-first search has opened: they have been placed, or they wait to be left. -/
def entered (placed : List NodeId) (stack : List Visit) : List NodeId :=
  placed ++ stack.filterMap Visit.waiting?

/-- The state of a depth-first search. The marks stand at the opened nodes, each of which has been
opened once, and what an opened node needs has been opened or is still to be. -/
structure Visiting (needs : NodeId → List NodeId) (marks : Array Bool) (placed : List NodeId)
    (stack : List Visit) : Prop where
  once : (entered placed stack).Nodup
  marked : ∀ i : Nat, marks.getD i false = true ↔ i ∈ entered placed stack
  needed : ∀ i : Nat, i ∈ entered placed stack → ∀ j : Nat, j ∈ needs i →
    j ∈ entered placed stack ∨ .enter j ∈ stack

/-- The state of a depth-first search among nodes that need only smaller ones. -/
structure Placing (needs : NodeId → List NodeId) (marks : Array Bool) (placed : List NodeId)
    (stack : List Visit) : Prop extends Visiting needs marks placed stack where
  sequenced : Sequenced needs placed
  waiting : Waiting needs placed stack

variable {needs : NodeId → List NodeId} {marks : Array Bool}

theorem getD_of_lt {i : Nat} (h : i < marks.size) : marks.getD i false = marks[i] := by
  simp [h]

theorem getD_set {i : Nat} (h : i < marks.size) (j : Nat) :
    (marks.set i true h).getD j false = true ↔ j = i ∨ marks.getD j false = true := by
  by_cases he : j = i
  · subst he
    simp [h]
  · simp [Array.getD_eq_getD_getElem?, he, Ne.symm he]

theorem lt_of_getD {i : Nat} (h : marks.getD i false = true) : i < marks.size := by
  rcases Nat.lt_or_ge i marks.size with hlt | hge
  · exact hlt
  · simp [Array.getD_eq_getD_getElem?, Array.getElem?_eq_none hge] at h

theorem getD_unmarked (size i : Nat) : (Array.replicate size false).getD i false = false := by
  rcases Nat.lt_or_ge i size with hlt | hge
  · simp [Array.getD_eq_getD_getElem?, hlt]
  · simp [Array.getD_eq_getD_getElem?, hge]

/-- What the starts lead to by going on to what is needed. -/
inductive Reaches (needs : NodeId → List NodeId) (starts : List NodeId) : Nat → Prop where
  | start {i : Nat} (h : i ∈ starts) : Reaches needs starts i
  | need {i j : Nat} (h : Reaches needs starts i) (hj : j ∈ needs i) : Reaches needs starts j

theorem Reaches.mono {starts starts' : List NodeId} {i : Nat} (h : Reaches needs starts i)
    (hs : ∀ j : Nat, j ∈ starts → j ∈ starts') : Reaches needs starts' i := by
  induction h with
  | start hi => exact .start (hs _ hi)
  | need _ hj ih => exact ih.need hj

/-- Where a search can end. It marks all that was marked or on the stack and all that marked nodes
need, or it meets a node that does not exist. What holds of the first nodes and passes on to what
they need holds of all that are found. -/
theorem reach_cases {stack : List NodeId} {within : Nat → Prop}
    (hw : ∀ i, within i → ∀ j : Nat, j ∈ needs i → within j)
    (hm : ∀ i : Nat, marks.getD i false = true → within i)
    (hs : ∀ i : Nat, i ∈ stack → within i)
    (hc : ∀ i : Nat, marks.getD i false = true → ∀ j : Nat, j ∈ needs i →
      marks.getD j false = true ∨ j ∈ stack) :
    (∃ marks', reach needs marks stack = .ok marks' ∧ marks'.size = marks.size ∧
      (∀ i : Nat, marks.getD i false = true ∨ i ∈ stack → marks'.getD i false = true) ∧
      ∀ i : Nat, marks'.getD i false = true → within i ∧ ∀ j : Nat, j ∈ needs i →
        marks'.getD j false = true) ∨
    ∃ i : Nat, within i ∧ marks.size ≤ i ∧
      reach needs marks stack = .error (.unplannableNode i marks.size) := by
  induction marks, stack using reach.induct needs with
  | case1 marks =>
    refine .inl ⟨marks, by rw [reach], rfl, ?_, ?_⟩
    · intro i hi
      simpa using hi
    · intro i hi
      refine ⟨hm i hi, ?_⟩
      intro j hj
      simpa using hc i hi j hj
  | case2 marks i stack hlt hmark ih =>
    have hmi : marks.getD i false = true := (getD_of_lt hlt).trans hmark
    rw [reach, dif_pos hlt, if_pos hmark]
    have hpop : ∀ j : Nat, marks.getD j false = true ∨ j ∈ i :: stack →
        marks.getD j false = true ∨ j ∈ stack := by
      intro j hj
      rcases hj with h | h
      · exact .inl h
      · rcases List.mem_cons.mp h with rfl | h
        · exact .inl hmi
        · exact .inr h
    rcases ih hm (fun j hj => hs j (by simp [hj])) (fun k hk j hj => hpop j (hc k hk j hj)) with
      ⟨marks', hr, hsize, hold, hfound⟩ | herror
    · exact .inl ⟨marks', hr, hsize, fun j hj => hold j (hpop j hj), hfound⟩
    · exact .inr herror
  | case3 marks i stack hlt hmark ih =>
    rw [reach, dif_pos hlt, if_neg hmark]
    simp only [Array.size_set, getD_set, List.mem_append, List.mem_reverse] at ih
    have hopen : ∀ j : Nat, marks.getD j false = true ∨ j ∈ i :: stack →
        (j = i ∨ marks.getD j false = true) ∨ j ∈ needs i ∨ j ∈ stack := by
      intro j hj
      rcases hj with h | h
      · exact .inl (.inr h)
      · rcases List.mem_cons.mp h with rfl | h
        · exact .inl (.inl rfl)
        · exact .inr (.inr h)
    have hi : within i := hs i (by simp)
    rcases ih (by
      intro j hj
      rcases hj with rfl | hj
      · exact hi
      · exact hm j hj) (by
      intro j hj
      rcases hj with hj | hj
      · exact hw i hi j hj
      · exact hs j (by simp [hj])) (by
      intro k hk j hj
      rcases hk with rfl | hk
      · exact .inr (.inl hj)
      · exact hopen j (hc k hk j hj)) with ⟨marks', hr, hsize, hold, hfound⟩ | herror
    · exact .inl ⟨marks', hr, hsize, fun j hj => hold j (hopen j hj), hfound⟩
    · exact .inr herror
  | case4 marks i stack hlt =>
    refine .inr ⟨i, hs i (by simp), Nat.le_of_not_lt hlt, ?_⟩
    rw [reach, dif_neg hlt]

/-- A search that starts without marks finds what the starts lead to, or stops at a node among it
that does not exist. -/
theorem reach_unmarked (needs : NodeId → List NodeId) (size : Nat) (starts : List NodeId) :
    (∃ marks, reach needs (Array.replicate size false) starts = .ok marks ∧ marks.size = size ∧
      ∀ i : Nat, marks.getD i false = true ↔ Reaches needs starts i) ∨
    ∃ i : Nat, Reaches needs starts i ∧ size ≤ i ∧
      reach needs (Array.replicate size false) starts = .error (.unplannableNode i size) := by
  have hnone : ∀ i : Nat, ¬(Array.replicate size false).getD i false = true := by
    intro i
    rw [getD_unmarked]
    exact Bool.false_ne_true
  have hcases := @reach_cases needs (Array.replicate size false) starts (Reaches needs starts)
    (fun i hi j hj => hi.need hj) (fun i hi => absurd hi (hnone i)) (fun i hi => .start hi)
    (fun i hi => absurd hi (hnone i))
  rw [Array.size_replicate] at hcases
  rcases hcases with ⟨marks, hr, hsize, hold, hfound⟩ | herror
  · refine .inl ⟨marks, hr, hsize, ?_⟩
    intro i
    refine ⟨fun hi => (hfound i hi).1, ?_⟩
    intro hi
    induction hi with
    | start h => exact hold _ (.inr h)
    | need _ hj ih => exact (hfound _ ih).2 _ hj
  · exact .inr herror

namespace Waiting

variable {placed : List NodeId} {stack : List Visit}

/-- The node on top is left: it is placed. -/
theorem leave {i : Nat} (h : Waiting needs placed (.leave i :: stack)) :
    Waiting needs (placed ++ [i]) stack := by
  intro above m below he
  obtain ⟨hm, hlt, hneeds⟩ := h (.leave i :: above) m below (by simp [he])
  have him : i < m := hlt (.leave i) (by simp)
  refine ⟨?_, fun x hx => hlt x (by simp [hx]), ?_⟩
  · simp only [List.mem_append, List.mem_singleton, not_or]
    exact ⟨hm, by omega⟩
  · intro j hj
    simp only [List.mem_append, List.mem_singleton]
    rcases hneeds j hj with h | h | h
    · exact .inl (.inl h)
    · rcases List.mem_cons.mp h with h | h
      · cases h
      · exact .inr (.inl h)
    · rcases List.mem_cons.mp h with h | h
      · cases h
        exact .inl (.inr rfl)
      · exact .inr (.inr h)

/-- The node on top is there already: it has been placed, or it waits. -/
theorem skip {i : Nat} (h : Waiting needs placed (.enter i :: stack))
    (hi : i ∈ placed ∨ .leave i ∈ stack) : Waiting needs placed stack := by
  intro above m below he
  obtain ⟨hm, hlt, hneeds⟩ := h (.enter i :: above) m below (by simp [he])
  refine ⟨hm, fun x hx => hlt x (by simp [hx]), ?_⟩
  intro j hj
  rcases hneeds j hj with h' | h' | h'
  · exact .inl h'
  · rcases List.mem_cons.mp h' with h' | h'
    · cases h'
      have him : i < m := hlt (.enter i) (by simp)
      rcases hi with hi | hi
      · exact .inl hi
      · -- were it below `m`, then `m` would be smaller than it
        simp only [he, List.mem_append, List.mem_cons, Visit.leave.injEq] at hi
        rcases hi with hi | rfl | hi
        · exact .inr (.inr hi)
        · exact absurd him (Nat.lt_irrefl i)
        · obtain ⟨mid, rest, rfl⟩ := List.append_of_mem hi
          have hmi := (h (.enter i :: above ++ .leave m :: mid) i rest (by simp [he])).2.1
            (.leave m) (by simp)
          exact absurd him (Nat.lt_asymm hmi)
    · exact .inr (.inl h')
  · rcases List.mem_cons.mp h' with h' | h'
    · cases h'
    · exact .inr (.inr h')

/-- Where a waiting node can stand once a node has been opened. -/
theorem opened {ids : List NodeId} {i m : Nat} {above below : List Visit}
    (he : ids.map .enter ++ .leave i :: stack = above ++ .leave m :: below) :
    (above = ids.map .enter ∧ m = i) ∨
      ∃ mid, above = ids.map .enter ++ .leave i :: mid ∧ stack = mid ++ .leave m :: below := by
  induction ids generalizing above with
  | nil =>
    cases above with
    | nil =>
      cases he
      exact .inl ⟨rfl, rfl⟩
    | cons x mid =>
      cases he
      exact .inr ⟨mid, rfl, rfl⟩
  | cons j ids ih =>
    cases above with
    | nil => cases he
    | cons x above =>
      obtain ⟨rfl, htail⟩ := List.cons.inj he
      rcases ih htail with ⟨rfl, hm⟩ | ⟨mid, rfl, hs⟩
      · exact .inl ⟨rfl, hm⟩
      · exact .inr ⟨mid, rfl, hs⟩

/-- The node on top is opened: what it needs comes on the stack, and it waits below. -/
theorem enter {i : Nat} (h : Waiting needs placed (.enter i :: stack)) (hi : i ∉ placed)
    (hn : ∀ j : Nat, j ∈ needs i → j < i) :
    Waiting needs placed ((needs i).map .enter ++ .leave i :: stack) := by
  intro above m below he
  rcases opened he with ⟨rfl, rfl⟩ | ⟨mid, rfl, hs⟩
  · refine ⟨hi, ?_, ?_⟩
    · intro x hx
      obtain ⟨j, hj, rfl⟩ := List.mem_map.mp hx
      exact hn j hj
    · intro j hj
      exact .inr (.inl (List.mem_map.mpr ⟨j, hj, rfl⟩))
  · obtain ⟨hm, hlt, hneeds⟩ := h (.enter i :: mid) m below (by simp [hs])
    have him : i < m := hlt (.enter i) (by simp)
    refine ⟨hm, ?_, ?_⟩
    · intro x hx
      simp only [List.mem_append, List.mem_map, List.mem_cons] at hx
      rcases hx with ⟨j, hj, rfl⟩ | rfl | hx
      · exact Nat.lt_trans (hn j hj) him
      · exact him
      · exact hlt x (by simp [hx])
    · intro j hj
      rcases hneeds j hj with h' | h' | h'
      · exact .inl h'
      · rcases List.mem_cons.mp h' with h' | h'
        · cases h'
          exact .inr (.inr (by simp))
        · exact .inr (.inl (by simp [h']))
      · rcases List.mem_cons.mp h' with h' | h'
        · cases h'
        · exact .inr (.inr (by simp [h']))

end Waiting

theorem mem_entered {placed : List NodeId} {stack : List Visit} {i : Nat} :
    i ∈ entered placed stack ↔ i ∈ placed ∨ .leave i ∈ stack := by
  simp only [entered, List.mem_append, List.mem_filterMap]
  refine or_congr_right ⟨?_, fun h => ⟨.leave i, h, rfl⟩⟩
  intro h
  obtain ⟨x, hx, he⟩ := h
  cases x with
  | enter j => cases he
  | leave j =>
    cases he
    exact hx

namespace Visiting

variable {placed : List NodeId} {stack : List Visit} {i : Nat}

theorem entered_leave (placed : List NodeId) (stack : List Visit) (i : Nat) :
    entered placed (.leave i :: stack) = entered (placed ++ [i]) stack := by
  simp [entered, Visit.waiting?]

theorem entered_enter (placed : List NodeId) (stack : List Visit) (i : Nat) :
    entered placed (.enter i :: stack) = entered placed stack := rfl

theorem entered_opened (placed ids : List NodeId) (stack : List Visit) (i : Nat) :
    entered placed (ids.map .enter ++ .leave i :: stack) =
      placed ++ i :: stack.filterMap Visit.waiting? := by
  have hnone : (ids.map Visit.enter).filterMap Visit.waiting? = [] := by
    simp [List.filterMap_map, Function.comp_def, Visit.waiting?]
  simp [entered, hnone, Visit.waiting?]

theorem leave (h : Visiting needs marks placed (.leave i :: stack)) :
    Visiting needs marks (placed ++ [i]) stack := by
  obtain ⟨honce, hmarked, hneeded⟩ := h
  rw [entered_leave] at honce hneeded
  simp only [entered_leave] at hmarked
  exact ⟨honce, hmarked, by simpa using hneeded⟩

theorem skip (h : Visiting needs marks placed (.enter i :: stack))
    (hi : marks.getD i false = true) : Visiting needs marks placed stack := by
  obtain ⟨honce, hmarked, hneeded⟩ := h
  rw [entered_enter] at honce hneeded
  simp only [entered_enter] at hmarked
  refine ⟨honce, hmarked, ?_⟩
  intro k hk j hj
  rcases hneeded k hk j hj with h | h
  · exact .inl h
  · rcases List.mem_cons.mp h with h | h
    · cases h
      exact .inl ((hmarked i).mp hi)
    · exact .inr h

theorem enter (h : Visiting needs marks placed (.enter i :: stack)) (hlt : i < marks.size)
    (hi : ¬marks.getD i false = true) :
    Visiting needs (marks.set i true hlt) placed
      ((needs i).map .enter ++ .leave i :: stack) := by
  obtain ⟨honce, hmarked, hneeded⟩ := h
  rw [entered_enter] at honce hneeded
  simp only [entered_enter] at hmarked
  have hmem : ∀ j : Nat, j ∈ entered placed ((needs i).map .enter ++ .leave i :: stack) ↔
      j = i ∨ j ∈ entered placed stack := by
    intro j
    rw [entered_opened, List.perm_middle.mem_iff, List.mem_cons]
    rfl
  refine ⟨?_, ?_, ?_⟩
  · rw [entered_opened, List.perm_middle.nodup_iff, List.nodup_cons]
    exact ⟨fun h => hi ((hmarked i).mpr h), honce⟩
  · intro j
    rw [getD_set, hmem, hmarked]
  · intro k hk j hj
    rw [hmem] at hk ⊢
    rcases hk with rfl | hk
    · exact .inr (List.mem_append_left _ (List.mem_map.mpr ⟨j, hj, rfl⟩))
    · rcases hneeded k hk j hj with h | h
      · exact .inl (.inr h)
      · rcases List.mem_cons.mp h with h | h
        · cases h
          exact .inl (.inl rfl)
        · exact .inr (by simp [h])

end Visiting

namespace Placing

variable {placed : List NodeId} {stack : List Visit} {i : Nat}

theorem leave (h : Placing needs marks placed (.leave i :: stack)) :
    Placing needs marks (placed ++ [i]) stack := by
  obtain ⟨hi, _, hneeds⟩ := h.waiting [] i stack rfl
  refine ⟨h.toVisiting.leave, h.sequenced.snoc ⟨hi, ?_⟩, h.waiting.leave⟩
  intro j hj
  rcases hneeds j hj with h | h | h
  · exact h
  · cases h
  · cases h

theorem skip (h : Placing needs marks placed (.enter i :: stack))
    (hi : marks.getD i false = true) : Placing needs marks placed stack := by
  have hv := h.toVisiting.skip hi
  exact ⟨hv, h.sequenced, h.waiting.skip (mem_entered.mp ((hv.marked i).mp hi))⟩

theorem enter (h : Placing needs marks placed (.enter i :: stack)) (hlt : i < marks.size)
    (hi : ¬marks.getD i false = true) (hn : ∀ j : Nat, j ∈ needs i → j < i) :
    Placing needs (marks.set i true hlt) placed
      ((needs i).map .enter ++ .leave i :: stack) := by
  have hnot : i ∉ placed := fun hp => hi ((h.marked i).mpr (mem_entered.mpr (.inl hp)))
  exact ⟨h.toVisiting.enter hlt hi, h.sequenced, h.waiting.enter hnot hn⟩

end Placing

/-- A depth-first search among nodes that exist places each node once. It places all that has been
placed or is on the stack, and whatever a placed node needs. -/
theorem place_lists {placed : Array NodeId} {stack : List Visit} {within : Nat → Prop}
    (hw : ∀ i, within i → i < marks.size ∧ ∀ j : Nat, j ∈ needs i → within j)
    (h : Visiting needs marks placed.toList stack) (hp : ∀ i : Nat, i ∈ placed → within i)
    (hs : ∀ x ∈ stack, within x.id) :
    (place needs marks placed stack).toList.Nodup ∧
      (∀ i : Nat, i ∈ place needs marks placed stack →
        within i ∧ ∀ j : Nat, j ∈ needs i → j ∈ place needs marks placed stack) ∧
      (∀ i : Nat, i ∈ placed → i ∈ place needs marks placed stack) ∧
      ∀ x ∈ stack, x.id ∈ place needs marks placed stack := by
  induction marks, placed, stack using place.induct needs with
  | case1 marks placed =>
    rw [place]
    have hall : entered placed.toList [] = placed.toList := by simp [entered]
    refine ⟨hall ▸ h.once, ?_, fun _ hi => hi, nofun⟩
    intro i hi
    refine ⟨hp i hi, ?_⟩
    intro j hj
    have hneed := h.needed i (by simpa [hall] using hi) j hj
    simpa [hall] using hneed
  | case2 marks placed i stack ih =>
    rw [place]
    obtain ⟨hnodup, hin, hold, hstack⟩ := ih hw (by simpa using h.leave) (by
      intro j hj
      rcases Array.mem_push.mp hj with hj | rfl
      · exact hp j hj
      · exact hs (.leave j) (by simp)) (fun x hx => hs x (by simp [hx]))
    refine ⟨hnodup, hin, fun j hj => hold j (Array.mem_push_of_mem i hj), ?_⟩
    intro x hx
    rcases List.mem_cons.mp hx with rfl | hx
    · exact hold i Array.mem_push_self
    · exact hstack x hx
  | case3 marks placed i stack hlt hm ih =>
    rw [place, dif_pos hlt, if_pos hm]
    have hmi : marks.getD i false = true := (getD_of_lt hlt).trans hm
    have hskip := h.skip hmi
    obtain ⟨hnodup, hin, hold, hstack⟩ := ih hw hskip hp (fun x hx => hs x (by simp [hx]))
    refine ⟨hnodup, hin, hold, ?_⟩
    intro x hx
    rcases List.mem_cons.mp hx with rfl | hx
    · rcases mem_entered.mp ((hskip.marked i).mp hmi) with hi | hi
      · exact hold i (by simpa using hi)
      · exact hstack (.leave i) hi
    · exact hstack x hx
  | case4 marks placed i stack hlt hm ih =>
    rw [place, dif_pos hlt, if_neg hm]
    have hi : within i := hs (.enter i) (by simp)
    obtain ⟨hnodup, hin, hold, hstack⟩ := ih (by simpa using hw)
      (h.enter hlt (by rwa [getD_of_lt hlt])) hp (by
        intro x hx
        simp only [List.mem_append, List.mem_map, List.mem_cons] at hx
        rcases hx with ⟨j, hj, rfl⟩ | rfl | hx
        · exact (hw i hi).2 j hj
        · exact hi
        · exact hs x (by simp [hx]))
    refine ⟨hnodup, hin, hold, ?_⟩
    intro x hx
    rcases List.mem_cons.mp hx with rfl | hx
    · exact hstack (.leave i) (by simp)
    · exact hstack x (by simp [hx])
  | case5 marks placed i stack hlt =>
    exact absurd (hw i (hs (.enter i) (by simp))).1 hlt

/-- Among nodes that need only smaller ones, each is placed behind what it needs. -/
theorem place_sequenced {placed : Array NodeId} {stack : List Visit} {within : Nat → Prop}
    (hw : ∀ i, within i → i < marks.size ∧ ∀ j : Nat, j ∈ needs i → j < i ∧ within j)
    (h : Placing needs marks placed.toList stack) (hs : ∀ x ∈ stack, within x.id) :
    Sequenced needs (place needs marks placed stack).toList := by
  induction marks, placed, stack using place.induct needs with
  | case1 marks placed =>
    rw [place]
    exact h.sequenced
  | case2 marks placed i stack ih =>
    rw [place]
    exact ih hw (by simpa using h.leave) fun x hx => hs x (by simp [hx])
  | case3 marks placed i stack hlt hm ih =>
    rw [place, dif_pos hlt, if_pos hm]
    exact ih hw (h.skip ((getD_of_lt hlt).trans hm)) fun x hx => hs x (by simp [hx])
  | case4 marks placed i stack hlt hm ih =>
    rw [place, dif_pos hlt, if_neg hm]
    obtain ⟨_, hneeds⟩ := hw i (hs (.enter i) (by simp))
    refine ih (by simpa using hw) (h.enter hlt (by rwa [getD_of_lt hlt]) fun j hj => (hneeds j hj).1) ?_
    intro x hx
    simp only [List.mem_append, List.mem_map, List.mem_cons] at hx
    rcases hx with ⟨j, hj, rfl⟩ | rfl | hx
    · exact (hneeds j hj).2
    · exact hs (.enter i) (by simp)
    · exact hs x (by simp [hx])
  | case5 marks placed i stack hlt =>
    exact absurd (hw i (hs (.enter i) (by simp))).1 hlt

/-- The state in which nothing has been opened. -/
theorem visiting_unmarked (needs : NodeId → List NodeId) (size : Nat) (starts : List NodeId) :
    Visiting needs (Array.replicate size false) [] (starts.map .enter) := by
  have hnone : entered [] (starts.map .enter) = [] := by
    simp [entered, List.filterMap_map, Function.comp_def, Visit.waiting?]
  refine ⟨by simp [hnone], ?_, by simp [hnone]⟩
  intro i
  rw [getD_unmarked]
  simp [hnone]

/-- A search from starts that lead only to nodes that exist lists what they lead to. -/
theorem place_reaches {size : Nat} {starts : List NodeId}
    (hb : ∀ i, Reaches needs starts i → i < size) :
    (place needs (Array.replicate size false) #[] (starts.map .enter)).toList.Nodup ∧
      ∀ i : Nat, i ∈ place needs (Array.replicate size false) #[] (starts.map .enter) ↔
        Reaches needs starts i := by
  obtain ⟨hnodup, hin, _, hall⟩ := place_lists
    (fun i (hi : Reaches needs starts i) => ⟨by simpa using hb i hi, fun j hj => hi.need hj⟩)
    (visiting_unmarked needs size starts) nofun (by
      intro x hx
      obtain ⟨i, hi, rfl⟩ := List.mem_map.mp hx
      exact .start hi)
  refine ⟨hnodup, fun i => ⟨fun hi => (hin i hi).1, ?_⟩⟩
  intro hi
  induction hi with
  | start h => exact hall (.enter _) (List.mem_map.mpr ⟨_, h, rfl⟩)
  | need _ hj ih => exact (hin _ ih).2 _ hj

/-- Where needs lead only to smaller nodes, what the starts lead to is listed behind its needs. -/
theorem sequenced_reaches {size : Nat} {starts : List NodeId}
    (hb : ∀ i, Reaches needs starts i → i < size)
    (hn : ∀ i, Reaches needs starts i → ∀ j : Nat, j ∈ needs i → j < i) :
    Sequenced needs (place needs (Array.replicate size false) #[] (starts.map .enter)).toList := by
  refine place_sequenced
    (fun i hi => ⟨by simpa using hb i hi, fun j hj => ⟨hn i hi j hj, hi.need hj⟩⟩)
    ⟨visiting_unmarked needs size starts, .nil, ?_⟩ ?_
  · intro above m below he
    have hm : Visit.leave m ∈ starts.map Visit.enter := by simp [he]
    simp at hm
  · intro x hx
    obtain ⟨i, hi, rfl⟩ := List.mem_map.mp hx
    exact .start hi

end FlatFourier.Plan
