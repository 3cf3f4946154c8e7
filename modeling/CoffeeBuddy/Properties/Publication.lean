import CoffeeBuddy.SlackRuns.Publisher
import CoffeeBuddy.Properties.RunEvents

/-! What the topic tells: the value of a record is read back as its event, the event tells the
row of its run, and so the records of any sequence of slash commands tell the table. -/

namespace CoffeeBuddy
open Relational
open KafkaRunEventPublisher (recordOf deserialize)

/-! ### One record -/

/-- The value and the key of a record are read back as the event, the text of the value is
printable ASCII, and records of different topics or events differ. -/
theorem record_reads_back (topic : String) (event : RunCreatedEvent) :
    deserialize (recordOf topic event).value = some event.toPayload ∧
    String.fromUTF8? (recordOf topic event).key = some event.runId ∧
    (∃ text, String.fromUTF8? (recordOf topic event).value = some text ∧
      ∀ c ∈ text.toList, ' ' ≤ c ∧ c ≤ '~') ∧
    ∀ topic' event', recordOf topic event = recordOf topic' event' ↔
      topic = topic' ∧ event = event' := by
  have hvalue := KafkaRunEventPublisher.deserialize_recordOf topic event
  have hkey := KafkaRunEventPublisher.fromUTF8?_toUTF8 event.runId
  have htext := KafkaRunEventPublisher.fromUTF8?_serialize event.toPayload
  have hprintable := KafkaRunEventPublisher.printable_jsonText event.toPayload
  refine ⟨hvalue, ?_, ⟨_, ?_, hprintable⟩, fun _ _ => KafkaRunEventPublisher.recordOf_inj⟩
  · rw [KafkaRunEventPublisher.recordOf_key, hkey]
  · rw [KafkaRunEventPublisher.recordOf_value, htext]

/-! ### Any sequence of commands -/

/-- The commands whose events are on the topic, in their order, and whose rows are in the
table, each at most once. -/
structure Accounts (cs : List SlashCommand) (p : RunPlatform) : Prop where
  topic : p.topic = cs.map fun c => c.run.created
  rows : p.db.rows.Sublist (cs.map SlashCommand.run)

section Commands
variable {p q : RunPlatform} {c : SlashCommand} {cs : List SlashCommand}
  {es fs : List (Transition.Event RunPlatform SlashCommand)}

theorem accounts_idle : Accounts [] ⟨.empty, []⟩ := ⟨rfl, List.Sublist.refl []⟩

/-- A command adds itself, its row only where it finishes. -/
theorem Accounts.step (h : Accounts cs p) (hq : commandStep p c q) :
    ∃ ds, Accounts ds q ∧ ((c.Publishes storeRow p → c.Finishes) →
      p.db.rows = cs.map SlashCommand.run → q.db.rows = ds.map SlashCommand.run) := by
  by_cases hpublishes : c.Publishes storeRow p
  · obtain ⟨runs, hruns⟩ := Option.isSome_iff_exists.mp hpublishes.2.2.1
    have hserved := serve_of_publishes hpublishes hruns
    have htopic : p.topic ++ [c.run.created] = (cs ++ [c]).map fun c => c.run.created := by
      rw [List.map_append, ← h.topic]
      rfl
    have hmap : (cs ++ [c]).map SlashCommand.run = cs.map SlashCommand.run ++ [c.run] :=
      List.map_append
    by_cases hfinishes : c.Finishes
    · have hstate : q = ⟨runs, p.topic ++ [c.run.created]⟩ := hq.trans (hserved.1 hfinishes)
      have hrows : q.db.rows = p.db.rows ++ [c.run] := by
        rw [hstate]
        exact Table.rows_insert hruns
      refine ⟨cs ++ [c], ⟨hstate ▸ htopic, ?_⟩, fun _ hall => ?_⟩
      · rw [hrows, hmap]
        exact h.rows.append_right [c.run]
      · rw [hrows, hmap, hall]
    · have hstate : q = { p with topic := p.topic ++ [c.run.created] } :=
        hq.trans (hserved.2 hfinishes)
      refine ⟨cs ++ [c], ⟨hstate ▸ htopic, ?_⟩, fun hsound => absurd (hsound hpublishes) hfinishes⟩
      rw [hstate, hmap]
      exact h.rows.trans (List.sublist_append_left _ _)
  · have hstate : q = p := hq.trans (serve_of_not_publishes hpublishes)
    exact ⟨cs, hstate ▸ h, fun _ hall => hstate ▸ hall⟩

theorem accounts_of_path {p₀ : RunPlatform} (h : Transition.Path commandStep p₀ es p)
    (h₀ : Accounts cs p₀) : ∃ ds, Accounts ds p ∧
      (p₀.db.rows = cs.map SlashCommand.run → (∀ e ∈ es, Sound e) →
        p.db.rows = ds.map SlashCommand.run) := by
  induction h with
  | nil => exact ⟨cs, h₀, fun hrows _ => hrows⟩
  | snoc path last ih =>
    obtain ⟨ds, hds, hall⟩ := ih
    obtain ⟨ds', hds', hlast⟩ := hds.step last
    refine ⟨ds', hds', fun hrows hsound => ?_⟩
    rw [List.forall_mem_append, List.forall_mem_singleton] at hsound
    exact hlast hsound.2 (hall hrows hsound.1)

/-- Equal records come from commands with equal rows. -/
theorem Accounts.rows_eq {topic : String} {ds : List SlashCommand} (hp : Accounts cs p)
    (hq : Accounts ds q) (h : p.topic.map (recordOf topic) = q.topic.map (recordOf topic)) :
    cs.map SlashCommand.run = ds.map SlashCommand.run := by
  have hrecord : Function.Injective (recordOf topic) := fun e f hef =>
    (KafkaRunEventPublisher.recordOf_inj.mp hef).2
  have htopic : p.topic = q.topic := List.map_injective_iff.mpr hrecord h
  rw [hp.topic, hq.topic] at htopic
  exact SlashCommand.map_run_eq htopic

end Commands

/-- Two histories with the same records have all their rows in one list of runs, in which the
values of the records are read back; the table is that list unless a command has failed after
its event. -/
theorem records_determine_runs (topic : String) (p q : RunPlatform)
    (es fs : List (Transition.Event RunPlatform SlashCommand))
    (hp : Transition.Path commandStep ⟨.empty, []⟩ es p)
    (hq : Transition.Path commandStep ⟨.empty, []⟩ fs q)
    (h : p.topic.map (recordOf topic) = q.topic.map (recordOf topic)) :
    ∃ runs : List Models.Run,
      ((p.topic.map (recordOf topic)).map fun r => deserialize r.value) =
        runs.map (fun run => some run.created.toPayload) ∧
      p.db.rows.Sublist runs ∧ q.db.rows.Sublist runs ∧
      ((∀ e ∈ es, Sound e) → p.db.rows = runs) ∧ ((∀ e ∈ fs, Sound e) → q.db.rows = runs) := by
  obtain ⟨cs, hcs, hwhole⟩ := accounts_of_path hp accounts_idle
  obtain ⟨ds, hds, hwhole'⟩ := accounts_of_path hq accounts_idle
  have hruns : cs.map SlashCommand.run = ds.map SlashCommand.run := hcs.rows_eq hds h
  refine ⟨cs.map SlashCommand.run, ?_, hcs.rows, hruns ▸ hds.rows, hwhole rfl, ?_⟩
  · rw [hcs.topic, List.map_map, List.map_map, List.map_map]
    simp only [Function.comp_def, KafkaRunEventPublisher.deserialize_recordOf]
  · intro hsound
    rw [hruns]
    exact hwhole' rfl hsound

/-! ### One run, with and without a failure before it -/

namespace Sample

/-- Its row is not flushed. -/
def unflushed : SlashCommand := { slashCommand 3 none with faults := { flush := true } }

theorem after_unflushed : (served unflushed).after = idlePlatform := by
  apply serve_of_not_publishes
  rintro ⟨-, hflush, -⟩
  exact absurd hflush (by decide)

theorem path_unflushed : Transition.Path commandStep idlePlatform
    [served unflushed, served (slashCommand 1 none)] (served (slashCommand 1 none)).after := by
  have hfirst := path_served unflushed
  rw [after_unflushed] at hfirst
  exact hfirst.append (path_served (slashCommand 1 none))

end Sample

open Sample in
theorem records_determine_runs_unflushed : ∃ runs : List Models.Run,
    (((served (slashCommand 1 none)).after.topic.map (recordOf "runs")).map
      fun r => deserialize r.value) = runs.map (fun run => some run.created.toPayload) ∧
    (served (slashCommand 1 none)).after.db.rows.Sublist runs ∧
    (served (slashCommand 1 none)).after.db.rows.Sublist runs ∧
    ((∀ e ∈ [served (slashCommand 1 none)], Sound e) →
      (served (slashCommand 1 none)).after.db.rows = runs) ∧
    ((∀ e ∈ [served unflushed, served (slashCommand 1 none)], Sound e) →
      (served (slashCommand 1 none)).after.db.rows = runs) :=
  records_determine_runs "runs" _ _ _ _ (path_served _) path_unflushed rfl

end CoffeeBuddy
