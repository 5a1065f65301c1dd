import Mathlib
import FlatFourier.Proofs.Scripts

namespace FlatFourier

open Build

/-- The operations that a step adds, in order. A step put together from two adds what the first adds
and, unless that fails, what the second adds. No other act adds anything. -/
inductive Build.Adds : {α : Type} → Build α → Builder → List Kind → Prop where
  | add (kind : Kind) (b : Builder) : Adds (add kind) b [kind]
  | pure (a : α) (b : Builder) : Adds (pure a) b []
  | throw (e : Error) (b : Builder) : Adds (throw e : Build α) b []
  | look (b : Builder) : Adds get b []
  | declare (name : String) (length : Nat) (b : Builder) : Adds (declare name length) b []
  | count (name : String) (b : Builder) : Adds (countAnswer name) b []
  | note (length : Nat) (b : Builder) :
      Adds (modify fun b => b.countPlanned length : Build Unit) b []
  | next {step : Build α} {rest : α → Build β} (h : Adds step b made) (hs : step b = .ok a b')
      (hr : Adds (rest a) b' more) : Adds (step >>= rest) b (made ++ more)
  | stop {step : Build α} {rest : α → Build β} (h : Adds step b made)
      (hs : step b = .error e b') : Adds (step >>= rest) b made

/-- The operations that events add one after another. -/
inductive Event.Add : List Event → Builder → List Kind → Prop where
  | nil (b : Builder) : Add [] b []
  | cons (h : event.run.Adds b made) (hr : Add events (event.run.after b) more) :
      Add (event :: events) b (made ++ more)

/-- The sum of the counts that are reported. -/
def RuleCounts.total (c : RuleCounts) : Nat :=
  (c.entries.map (·.2)).sum

/-- The tally fits the graph, the log and the operations that have been added. -/
structure Builder.Accounts (b : Builder) (made : List Kind) : Prop where
  created : b.tally.created = b.graph.size
  logged : b.tally.writes = b.log.size
  written : b.tally.writes = b.graph.list.countP fun n => !n.kind.isPure
  simplified : b.tally.simplified = b.tally.byRule.total
  made : b.tally.created + b.tally.reused = made.length
  unshared : b.options.sharing = false → b.tally.reused = 0

namespace Build

variable {b : Builder}

theorem Adds.ask (question : Builder → Except Error α) (b : Builder) :
    Adds (ask question) b [] := by
  refine Adds.next (.look b) (get_run b) ?_
  split
  · exact .pure _ b
  · exact .throw _ b

theorem Adds.checkCell (a : ArrayId) (c : Nat) (b : Builder) : Adds (checkCell a c) b [] := by
  cases ha : b.arrays[a]? with
  | none => exact .stop (.ask _ b) (array_error ha)
  | some info =>
    refine Adds.next (.ask _ b) (array_run ha) ?_
    split
    · exact .pure _ b
    · exact .throw _ b

/-- What is added can be read off every step that is put together from single acts. -/
theorem Composed.adds {step : Build α} (h : Composed step) (b : Builder) :
    ∃ made, Adds step b made := by
  induction h generalizing b with
  | pure a => exact ⟨[], .pure a b⟩
  | throw e => exact ⟨[], .throw e b⟩
  | @bind _ _ step rest _ _ ih ihr =>
    obtain ⟨made, hm⟩ := ih b
    cases hs : step b with
    | ok a b' =>
      obtain ⟨more, hr⟩ := ihr a b'
      exact ⟨made ++ more, .next hm hs hr⟩
    | error e b' => exact ⟨made, .stop hm hs⟩
  | look _ _ ih =>
    obtain ⟨more, hr⟩ := ih b b
    exact ⟨[] ++ more, .next (.look b) (get_run b) hr⟩
  | cell a c => exact ⟨[], .checkCell a c b⟩
  | add kind => exact ⟨[kind], .add kind b⟩
  | declare name length => exact ⟨[] ++ [], .next (.declare name length b) rfl (.pure _ _)⟩
  | count name => exact ⟨[], .count name b⟩
  | note length => exact ⟨[], .note length b⟩

/-- What has been added is counted, once each. -/
theorem Adds.counted {step : Build α} (h : Adds step b made) :
    (step.after b).tally.created + (step.after b).tally.reused =
      b.tally.created + b.tally.reused + made.length := by
  -- Only an operation that is added changes the two counts, so the other acts are immediate.
  induction h with
  | add kind b => exact Builder.add_made b kind
  | next _ hs _ ih ihr =>
    rw [after_ok hs] at ih
    rw [after, run_bind hs, ← after, ihr, ih, List.length_append, Nat.add_assoc]
  | stop _ hs ih =>
    rw [after_error hs] at ih
    rw [after_error (run_bind_error hs), ih]
  | _ => rfl

end Build

namespace Event

variable {b : Builder} {events : List Event}

theorem exists_add (events : List Event) (b : Builder) : ∃ made, Add events b made := by
  induction events generalizing b with
  | nil => exact ⟨[], .nil b⟩
  | cons event events ih =>
    obtain ⟨made, hm⟩ := (composed_event event).adds b
    obtain ⟨more, hr⟩ := ih (event.run.after b)
    exact ⟨made ++ more, .cons hm hr⟩

theorem Add.counted (h : Add events b made) :
    (b.after events).tally.created + (b.after events).tally.reused =
      b.tally.created + b.tally.reused + made.length := by
  induction h with
  | nil b => rfl
  | cons hm _ ih =>
    rw [List.length_append, ← Nat.add_assoc, ← hm.counted]
    exact ih

end Event

theorem RuleCounts.total_increment (c : RuleCounts) (name : String) :
    (c.increment name).total = c.total + 1 := by
  have hbump (entries : List (String × Nat)) :
      ((bump name entries).map (·.2)).sum = (entries.map (·.2)).sum + 1 := by
    induction entries with
    | nil => rfl
    | cons entry rest ih =>
      obtain ⟨other, n⟩ := entry
      by_cases h : other = name
      · simp only [bump, h, if_true, List.map_cons, List.sum_cons]
        omega
      · simp only [bump, h, if_false, List.map_cons, List.sum_cons, ih]
        omega
  exact hbump c.entries

theorem created_lasting : Lasting fun b => b.tally.created = b.graph.size where
  add := by
    intro b h kind
    rcases Builder.add_cases b kind with ⟨i, _, he⟩ | ⟨_, he⟩ <;> rw [he]
    · exact h
    · simp [Graph.size, h]
  declare h _ _ := h
  count h _ := h
  planned h _ := h

theorem WriteLog.size_enter (log : WriteLog) (i : NodeId) (kind : Kind) :
    (log.enter i kind).size = log.size + if kind.isPure then 0 else 1 := by
  cases kind with
  | write a c v => simp [WriteLog.enter, reserve, record, size, Kind.isPure]
  | _ => rfl

theorem entries_lasting : Lasting fun b => b.tally.writes = b.log.size where
  add := by
    intro b h kind
    rw [Builder.add_writes, Builder.add_log, WriteLog.size_enter, h]
  declare h _ _ := h
  count h _ := h
  planned h _ := h

theorem writes_lasting : Lasting fun b =>
    b.tally.writes = b.graph.list.countP fun n => !n.kind.isPure where
  add := by
    intro b h kind
    rcases Builder.add_cases b kind with ⟨i, _, he⟩ | ⟨_, he⟩ <;> rw [he]
    · exact h
    · simp only [Graph.append_list, List.countP_append, List.countP_singleton, h]
      cases kind.isPure <;> rfl
  declare h _ _ := h
  count h _ := h
  planned h _ := h

theorem simplified_lasting : Lasting fun b => b.tally.simplified = b.tally.byRule.total where
  add := by
    intro b h kind
    rw [Builder.add_simplified, Builder.add_byRule, h]
  declare h _ _ := h
  count := by
    intro b h rule
    rw [Builder.countAnswer, Tally.countAnswer, RuleCounts.total_increment, h]
  planned h _ := h

/-- Whatever has happened to a builder, its tally accounts for what is there and for all operations
that have been added on the way. -/
theorem tally_accounts (options : Options) (rules : List Rule) (events : List Event) :
    (∃ made, Event.Add events (.withRules options rules) made) ∧
      ∀ made, Event.Add events (.withRules options rules) made →
        ((Builder.withRules options rules).after events).Accounts made := by
  refine ⟨Event.exists_add events _, fun made hmade => ?_⟩
  exact {
    created := created_lasting.events rfl events
    logged := entries_lasting.events rfl events
    written := writes_lasting.events rfl events
    simplified := simplified_lasting.events rfl events
    made := by
      rw [hmade.counted]
      exact Nat.zero_add _
    unshared := by
      intro hsharing
      rw [(Builder.settings_after options rules events).1] at hsharing
      exact (unshared_lasting.events (b := .withRules options rules) ⟨hsharing, rfl⟩ events).2 }

end FlatFourier
