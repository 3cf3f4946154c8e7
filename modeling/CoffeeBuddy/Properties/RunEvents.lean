import CoffeeBuddy.Library.Table
import CoffeeBuddy.SlackRuns.Service

/-! Committed run rows against published `run_created` events, over any sequence of slash
commands and failures. The event goes out before the commit and before the message is
built, so either can leave it without its row. -/

namespace CoffeeBuddy
open Relational

/-- The database stores the row unless its primary key is taken. -/
abbrev storeRow (run : Models.Run) (runs : Table Models.Run) : Option (Table Models.Run) :=
  runs.insert run

abbrev RunPlatform := Platform (Table Models.Run)

def commandStep (p : RunPlatform) (c : SlashCommand) (q : RunPlatform) : Prop :=
  q = (serve storeRow c p).2

/-- A run is committed iff its event has been published. -/
def Agrees (p : RunPlatform) : Prop :=
  ∀ id, (∃ event ∈ p.topic, event.runId = id) ↔ ∃ run ∈ p.db, run.id = id

/-- A command whose event goes out commits and has a message. -/
def Sound (e : Transition.Event RunPlatform SlashCommand) : Prop :=
  e.label.Publishes storeRow e.before → e.label.Finishes

section Agreement
variable {p q : RunPlatform} {c : SlashCommand}

/-- A published command adds its run id to the topic, and to the table iff it finishes. -/
theorem agrees_of_publishes (h : c.Publishes storeRow p) (hagrees : Agrees p)
    (hq : commandStep p c q) : Agrees q ↔ c.Finishes := by
  obtain ⟨runs, hruns⟩ := Option.isSome_iff_exists.mp h.2.2.1
  obtain ⟨hnew, hrows⟩ := Table.insert_eq_some.mp hruns
  obtain ⟨hfinishes, hfails⟩ := serve_of_publishes h hruns
  constructor
  · intro hafter
    by_contra hnot
    rw [commandStep, hfails hnot] at hq
    subst hq
    have hevent : ∃ event ∈ p.topic ++ [c.run.created], event.runId = c.run.id :=
      ⟨c.run.created, List.mem_append_right _ List.mem_cons_self, rfl⟩
    obtain ⟨run, hrun, hid⟩ := (hafter c.run.id).mp hevent
    exact hnew run hrun hid
  · intro hfinish id
    rw [commandStep, hfinishes hfinish] at hq
    subst hq
    have htopic : (∃ event ∈ p.topic ++ [c.run.created], event.runId = id) ↔
        (∃ event ∈ p.topic, event.runId = id) ∨ c.run.id = id := by
      simp only [List.mem_append, List.mem_singleton, or_and_right, exists_or, exists_eq_left]
      rfl
    have htable : (∃ run ∈ runs, run.id = id) ↔ (∃ run ∈ p.db, run.id = id) ∨ c.run.id = id := by
      simp only [Table.mem_insert hruns, or_and_right, exists_or, exists_eq_left]
    rw [htopic, htable, hagrees id]

theorem agrees_step (hagrees : Agrees p) (hq : commandStep p c q) :
    Agrees q ↔ (c.Publishes storeRow p → c.Finishes) := by
  by_cases h : c.Publishes storeRow p
  · rw [agrees_of_publishes h hagrees hq]
    exact ⟨fun hf _ => hf, fun hf => hf h⟩
  · rw [commandStep, serve_of_not_publishes h] at hq
    subst hq
    exact iff_of_true hagrees fun hpub => absurd hpub h

end Agreement

theorem run_and_event_agree_iff (p₀ p : RunPlatform)
    (es : List (Transition.Event RunPlatform SlashCommand))
    (h : Transition.Path commandStep p₀ es p) (h₀ : Agrees p₀) :
    (∀ e ∈ es, Agrees e.after) ↔ ∀ e ∈ es, Sound e := by
  induction h with
  | nil => simp
  | snoc path last ih =>
    rw [List.forall_mem_append, List.forall_mem_append, ih]
    simp only [List.forall_mem_singleton]
    refine and_congr_right fun hsound => ?_
    exact agrees_step (path.reached h₀ (ih.mpr hsound)) last

/-! ### Two commands -/

namespace Sample

/-- 0001-01-01T00:00:00+14:00 -/
def earlyPickup : PickupTime :=
  { wall := wallMin, utcoffset := some (14 * hour), inRange := by decide, aware := rfl }

/-- 2030-01-01T09:00:00+00:00 -/
def morning : Datetime := ⟨1893488400000000, some 0, by decide⟩

def slashCommand (n : ℕ) (pickupTime : Option PickupTime) : SlashCommand :=
  { command := { channelId := "C1", userId := "U1" }, options := { pickupTime }
    now := morning, runId := .ofNat n, correlationId := .ofNat (n + 1) }

def idlePlatform : RunPlatform := ⟨.empty, []⟩

def served (c : SlashCommand) : Transition.Event RunPlatform SlashCommand :=
  ⟨idlePlatform, c, (serve storeRow c idlePlatform).2⟩

theorem path_served (c : SlashCommand) :
    Transition.Path commandStep idlePlatform [served c] (served c).after := .snoc .nil rfl

theorem agrees_idle : Agrees idlePlatform := fun _ =>
  iff_of_false (fun ⟨_, he, _⟩ => List.not_mem_nil he) fun ⟨_, hr, _⟩ => List.not_mem_nil hr

theorem publishes_slashCommand (pickupTime : Option PickupTime) :
    (slashCommand 1 pickupTime).Publishes storeRow idlePlatform := by
  refine ⟨rfl, rfl, Option.isSome_iff_ne_none.mpr fun hnone => ?_, rfl⟩
  obtain ⟨run, hrun, -⟩ := Table.insert_eq_none.mp hnone
  exact List.not_mem_nil hrun

end Sample

open Sample in
/-- No step fails from outside, and yet the event is out and its row rolled back. -/
theorem early_pickup_leaves_event :
    Transition.Path commandStep idlePlatform [served (slashCommand 1 (some earlyPickup))]
      (served (slashCommand 1 (some earlyPickup))).after ∧ Agrees idlePlatform ∧
    (slashCommand 1 (some earlyPickup)).options.hasErrors = false ∧
    (slashCommand 1 (some earlyPickup)).faults = {} ∧
    ¬Agrees (served (slashCommand 1 (some earlyPickup))).after := by
  refine ⟨path_served _, agrees_idle, rfl, rfl, fun hafter => ?_⟩
  have hpublishes := publishes_slashCommand (some earlyPickup)
  have hfinish := (agrees_of_publishes hpublishes agrees_idle rfl).mp hafter
  exact absurd (hfinish.2 earlyPickup rfl) (by decide)

open Sample in
theorem run_and_event_agree_iff_served :
    (∀ e ∈ [served (slashCommand 1 none)], Agrees e.after) ↔
      ∀ e ∈ [served (slashCommand 1 none)], Sound e :=
  run_and_event_agree_iff idlePlatform _ _ (path_served _) agrees_idle

end CoffeeBuddy
