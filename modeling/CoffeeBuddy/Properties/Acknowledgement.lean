import CoffeeBuddy.Properties.Redelivery

/-! What a committed position says about the reminders below it. The client commits what it
has handed out, handled or not: a message is lost to the group exactly when a commit finds its
handler running, or to have raised since the client was started. -/

namespace CoffeeBuddy
open Transition

namespace KafkaEventConsumer
variable {M E : Type} (decode : M → Option E) {outcome : E → Bool → Prop} {s t : State M} {l : Label M}
  {es : List (Event (State M) (Label M))} {offset : ℕ}

/-- The decodable messages at the offsets in `P` have had their handler return. -/
def Handled (s : State M) (P : ℕ → Prop) : Prop :=
  ∀ offset message, P offset → s.log[offset]? = some message → (decode message).isSome = true →
    offset ∈ s.returned

def Acknowledged (s : State M) : Prop := Handled decode s fun offset => offset < s.committed

def Settled (s : State M) : Prop :=
  ∀ position ∈ s.consumer, Handled decode s fun offset => s.committed ≤ offset ∧ offset < position

/-- The running client commits its position, on its own or when it is stopped. -/
def Commits (s : State M) (l : Label M) : Prop :=
  s.consumer ≠ none ∧ (l = .commit ∨ l = .stop true ∧ s.task ≠ some .failed)

def sinceOpened (es : List (Event (State M) (Label M))) : List (Event (State M) (Label M)) :=
  es.rtakeWhile fun e => !opens e

/-- The handler of the message is running, or has raised since the client was started. -/
def Unfinished (es : List (Event (State M) (Label M))) (s : State M) (offset : ℕ) : Prop :=
  offset ∈ current s ∨ (offset, Fate.raised) ∈ (sinceOpened es).filterMap settled

/-- A commit finds no message unfinished, unless its handler had returned on another delivery. -/
def CommitsFinished (es : List (Event (State M) (Label M))) (e : Event (State M) (Label M)) : Prop :=
  Commits e.before e.label → ∀ offset, Unfinished es e.before offset →
    (offset, Fate.returned) ∈ es.filterMap settled

variable {decode}

theorem Acknowledged.step (h : Acknowledged decode s) (hwithin : Within s)
    (hstep : Step decode outcome s l t) (hsettled : Commits s l → Settled decode s) :
    Acknowledged decode t := by
  intro offset message hoffset hlog hdecode
  cases hstep with
  | produce m =>
    refine h offset message hoffset ?_ hdecode
    rwa [← List.getElem?_append_left (hoffset.trans_le hwithin.committed)]
  | handlerReturns => exact List.mem_cons_of_mem _ (h offset message hoffset hlog hdecode)
  | commit hconsumer =>
    rcases lt_or_ge offset s.committed with hlt | hge
    · exact h offset message hlt hlog hdecode
    · have hcommits : Commits s .commit := ⟨by simp [hconsumer], .inl rfl⟩
      exact hsettled hcommits _ hconsumer offset message ⟨hge, hoffset⟩ hlog hdecode
  | stop commits htask =>
    rcases lt_or_ge offset s.committed with hlt | hge
    · exact h offset message hlt hlog hdecode
    · cases commits with
      | false => exact absurd hoffset hge.not_gt
      | true =>
        cases hconsumer : s.consumer with
        | none =>
          rw [hconsumer] at hoffset
          exact absurd hoffset hge.not_gt
        | some position =>
          rw [hconsumer] at hoffset
          have hcommits : Commits s (.stop true) := ⟨by simp [hconsumer], .inr ⟨rfl, htask⟩⟩
          exact hsettled hcommits position hconsumer offset message ⟨hge, hoffset⟩ hlog hdecode
  | _ => exact h offset message hoffset hlog hdecode

/-! ### While the client runs -/

theorem unfinished_snoc {e : Event (State M) (Label M)} (hopens : opens e = false) :
    Unfinished (es ++ [e]) e.after offset ↔ offset ∈ current e.after ∨
      (offset, Fate.raised) ∈ (sinceOpened es).filterMap settled ∨
      settled e = some (offset, Fate.raised) := by
  have hsince : sinceOpened (es ++ [e]) = sinceOpened es ++ [e] :=
    List.rtakeWhile_concat_pos _ _ _ (by rw [hopens]; rfl)
  rw [Unfinished, hsince, Path.filterMap_snoc, List.mem_append, Option.mem_toList]

/-- An event that neither starts the client nor ends the handling of a message with an error. -/
theorem unfinished_snoc_quiet {e : Event (State M) (Label M)} (hopens : opens e = false)
    (hsettled : settled e = none) (hcurrent : current e.after = current e.before) :
    Unfinished (es ++ [e]) e.after offset ↔ Unfinished es e.before offset := by
  rw [unfinished_snoc hopens, hsettled, hcurrent, Unfinished]
  simp

theorem not_unfinished_opened {e : Event (State M) (Label M)} (hopens : opens e = true)
    (hcurrent : current e.after = []) : ¬Unfinished (es ++ [e]) e.after offset := by
  have hsince : sinceOpened (es ++ [e]) = [] :=
    List.rtakeWhile_concat_neg _ _ _ (by rw [hopens]; simp)
  rw [Unfinished, hsince, hcurrent]
  simp

/-- While the client runs, what is unfinished has been handed out, and what has been handed out
past the committed position has returned or is unfinished. -/
structure Lifetime (decode : M → Option E) (es : List (Event (State M) (Label M))) (s : State M) :
    Prop where
  handedOut : ∀ position, s.consumer = some position → ∀ offset, Unfinished es s offset →
    offset < position ∧ ∃ message, s.log[offset]? = some message ∧ (decode message).isSome = true
  covered : ∀ position, s.consumer = some position → ∀ offset message, s.committed ≤ offset →
    offset < position → s.log[offset]? = some message → (decode message).isSome = true →
    offset ∈ s.returned ∨ Unfinished es s offset

/-- What a step leaves unfinished that neither hands out a message nor ends a handling. -/
theorem Lifetime.quiet (h : Lifetime decode es s) (hopens : opens ⟨s, l, t⟩ = false)
    (hsettled : settled ⟨s, l, t⟩ = none) (hcurrent : current t = current s)
    (hlog : ∀ position, t.consumer = some position → ∀ offset < position,
      t.log[offset]? = s.log[offset]?)
    (hcommitted : s.committed ≤ t.committed) (hreturned : t.returned = s.returned)
    (hconsumer : ∀ position, t.consumer = some position → s.consumer = some position) :
    Lifetime decode (es ++ [⟨s, l, t⟩]) t := by
  have hunfinished : ∀ offset, Unfinished (es ++ [⟨s, l, t⟩]) t offset ↔ Unfinished es s offset :=
    fun _ => unfinished_snoc_quiet hopens hsettled hcurrent
  constructor
  · intro position hposition offset hoffset
    obtain ⟨hlt, message, hmessage, hdecode⟩ :=
      h.handedOut position (hconsumer position hposition) offset ((hunfinished offset).mp hoffset)
    exact ⟨hlt, message, (hlog position hposition offset hlt).trans hmessage, hdecode⟩
  · intro position hposition offset message hle hlt hmessage hdecode
    rw [hlog position hposition offset hlt] at hmessage
    rw [hreturned, hunfinished]
    exact h.covered position (hconsumer position hposition) offset message (hcommitted.trans hle) hlt
      hmessage hdecode

/-- The client passes one message, which is unfinished from then on if it decodes. -/
theorem Lifetime.passes (h : Lifetime decode es s) {es' : List (Event (State M) (Label M))}
    {position : ℕ} {message : M} (hconsumer : s.consumer = some position)
    (hmessage : s.log[position]? = some message) (hnext : t.consumer = some (position + 1))
    (hlog : t.log = s.log) (hcommitted : t.committed = s.committed)
    (hreturned : t.returned = s.returned)
    (hunfinished : ∀ offset, Unfinished es' t offset ↔
      offset = position ∧ (decode message).isSome = true ∨ Unfinished es s offset) :
    Lifetime decode es' t := by
  constructor
  · intro next hnext' offset hoffset
    obtain rfl := Option.some.inj (hnext.symm.trans hnext')
    rw [hlog]
    rcases (hunfinished offset).mp hoffset with ⟨rfl, hdecode⟩ | hbefore
    · exact ⟨Nat.lt_succ_self _, message, hmessage, hdecode⟩
    · obtain ⟨hlt, hdecoded⟩ := h.handedOut position hconsumer offset hbefore
      exact ⟨Nat.lt_succ_of_lt hlt, hdecoded⟩
  · intro next hnext' offset passed hle hlt hpassed hdecode
    obtain rfl := Option.some.inj (hnext.symm.trans hnext')
    rw [hcommitted] at hle
    rw [hlog] at hpassed
    rw [hreturned, hunfinished]
    rcases Nat.lt_succ_iff_lt_or_eq.mp hlt with hlt | rfl
    · have hbefore := h.covered position hconsumer offset passed hle hlt hpassed hdecode
      exact hbefore.imp_right Or.inr
    · obtain rfl := Option.some.inj (hmessage.symm.trans hpassed)
      exact Or.inr (Or.inl ⟨rfl, hdecode⟩)

theorem Lifetime.step (h : Lifetime decode es s) (hwithin : Within s) (hhalted : Halted s)
    (hstep : Step decode outcome s l t) : Lifetime decode (es ++ [⟨s, l, t⟩]) t := by
  have hlog : ∀ position, s.consumer = some position → ∀ offset < position,
      t.log[offset]? = s.log[offset]? := fun position hposition offset hlt =>
    log_step hstep (hlt.trans_le (hwithin.position position hposition))
  have hnow : opens ⟨s, l, t⟩ = false → ∀ offset, Unfinished (es ++ [⟨s, l, t⟩]) t offset ↔
      offset ∈ current t ∨ (offset, Fate.raised) ∈ (sinceOpened es).filterMap settled ∨
        settled ⟨s, l, t⟩ = some (offset, Fate.raised) := fun hopens _ => unfinished_snoc hopens
  have hsame : opens ⟨s, l, t⟩ = false → settled ⟨s, l, t⟩ = none → current t = current s →
      ∀ offset, Unfinished (es ++ [⟨s, l, t⟩]) t offset ↔ Unfinished es s offset :=
    fun hopens hsettled hcurrent _ => unfinished_snoc_quiet hopens hsettled hcurrent
  cases hstep with
  | produce message =>
    exact h.quiet (by simp [opens]) (by simp [settled]) rfl hlog le_rfl rfl fun _ hp => hp
  | startRunning hconsumer =>
    exact h.quiet (by simp [opens, hconsumer]) (by simp [settled]) rfl hlog le_rfl rfl fun _ hp => hp
  | loopError htask =>
    exact h.quiet (by simp [opens]) (by simp [settled]) (by simp [current, htask]) hlog le_rfl rfl
      fun _ hp => hp
  | stopFailed _ htask =>
    exact h.quiet (by simp [opens]) (by simp [settled, htask]) rfl hlog le_rfl rfl fun _ hp => hp
  | commit hconsumer =>
    have hsame := hsame (by simp [opens]) (by simp [settled]) rfl
    refine ⟨fun p hp o ho => h.handedOut p hp o ((hsame o).mp ho), fun p hp o m hle hlt => ?_⟩
    -- nothing is past the committed position
    obtain rfl := Option.some.inj (hconsumer.symm.trans hp)
    exact absurd hlt hle.not_gt
  | start hconsumer =>
    refine ⟨fun _ _ offset hoffset => ?_, fun p hp o m hle hlt => ?_⟩
    · exact absurd hoffset (not_unfinished_opened (by simp [opens, hconsumer]) rfl)
    · obtain rfl := Option.some.inj hp
      exact absurd hlt (Nat.not_lt.mpr hle)
  | @undecodable position skipped htask hconsumer hmessage _ hnone =>
    have hsame := hsame (by simp [opens]) (by simp [settled]) rfl
    refine h.passes hconsumer hmessage rfl rfl rfl rfl fun offset => ?_
    rw [hsame, hnone]
    simp
  | @deliver position delivered event htask hconsumer hmessage _ hsome =>
    have hnow := hnow (by simp [opens])
    have hidle : current s = [] := by simp [current, htask]
    refine h.passes hconsumer hmessage rfl rfl rfl rfl fun offset => ?_
    rw [hnow, Unfinished, hidle, hsome]
    simp [current, settled]
  | stopSeen htask _ _ hstop =>
    have hidle := hhalted.stopped hstop
    simp [htask] at hidle
  | @handlerReturns handled _ _ htask =>
    have hnow := hnow (by simp [opens])
    simp only [current, settled, htask, List.not_mem_nil, false_or, Option.some.injEq, Prod.mk.injEq,
      reduceCtorEq, and_false, or_false] at hnow
    refine ⟨fun p hp o ho => h.handedOut p hp o (Or.inr ((hnow o).mp ho)),
      fun p hp offset message hle hlt hlog hdecode => ?_⟩
    rcases h.covered p hp offset message hle hlt hlog hdecode with hr | hrun | hraised
    · exact Or.inl (List.mem_cons_of_mem _ hr)
    · have heq : offset = handled := by simpa [current, htask] using hrun
      exact Or.inl (heq ▸ List.mem_cons_self)
    · exact Or.inr ((hnow offset).mpr hraised)
  | @handlerRaises handled _ _ htask =>
    -- the offset that was current is now among those that raised
    have hsame : ∀ offset, Unfinished (es ++ [⟨s, .handlerRaises, { s with task := some .fetching }⟩])
        { s with task := some .fetching } offset ↔ Unfinished es s offset := by
      intro offset
      rw [hnow (by simp [opens])]
      simp [Unfinished, current, settled, htask, or_comm, eq_comm]
    exact ⟨fun p hp o ho => h.handedOut p hp o ((hsame o).mp ho), fun p hp o m hle hlt hlog hd =>
      (h.covered p hp o m hle hlt hlog hd).imp_right (hsame o).mpr⟩
  | stop commits => exact ⟨fun _ hp => absurd hp (by simp), fun _ hp => absurd hp (by simp)⟩

theorem lifetime_of_run {log : List M} (h : Run decode outcome { log := log } es t) :
    Lifetime decode es t := by
  induction h with
  | nil => exact ⟨fun _ hp => absurd hp (by simp), fun _ hp => absurd hp (by simp)⟩
  | snoc path last ih => exact ih.step (within_of_run path) (halted_of_run path) last

/-! ### The commits of a run -/

/-- The position a commit leaves behind is the client's, and it changes nothing else. -/
theorem committed_of_commits (hstep : Step decode outcome s l t) (hl : Commits s l) :
    ∃ position, s.consumer = some position ∧ t.committed = position ∧ t.log = s.log ∧
      t.returned = s.returned := by
  obtain ⟨hrunning, rfl | ⟨rfl, htask⟩⟩ := hl
  · cases hstep with
    | commit hconsumer => exact ⟨_, hconsumer, rfl, rfl, rfl⟩
  · obtain ⟨position, hposition⟩ := Option.ne_none_iff_exists'.mp hrunning
    cases hstep with
    | stop => exact ⟨position, hposition, by simp [hposition], rfl, rfl⟩
    | stopFailed _ hfailed => exact absurd hfailed htask

theorem settled_of_finished {log : List M} (h : Run decode outcome { log := log } es s)
    (hfinished : ∀ offset, Unfinished es s offset → (offset, Fate.returned) ∈ es.filterMap settled) :
    Settled decode s := by
  intro position hposition offset message hoffset hlog hdecode
  have hlifetime := lifetime_of_run h
  rcases hlifetime.covered position hposition offset message hoffset.1 hoffset.2 hlog hdecode with
    hreturned | hunfinished
  · exact hreturned
  · exact (mem_returned h).mpr (hfinished offset hunfinished)

theorem finished_of_acknowledged {log : List M} (h : Run decode outcome { log := log } es s)
    (hstep : Step decode outcome s l t) (hl : Commits s l) (hack : Acknowledged decode t)
    (hunfinished : Unfinished es s offset) : (offset, Fate.returned) ∈ es.filterMap settled := by
  obtain ⟨position, hposition, hcommitted, hlog, hreturned⟩ := committed_of_commits hstep hl
  obtain ⟨hlt, message, hmessage, hdecode⟩ :=
    (lifetime_of_run h).handedOut position hposition offset hunfinished
  have hdone : offset ∈ t.returned :=
    hack offset message (hcommitted ▸ hlt) ((congrArg (·[offset]?) hlog).trans hmessage) hdecode
  exact (mem_returned h).mp (hreturned ▸ hdone)

theorem acknowledged_of_finished {log : List M} (h : Run decode outcome { log := log } es t)
    (hfinished : Throughout CommitsFinished es) : Acknowledged decode t := by
  induction h with
  | nil => exact fun _ _ hlt => absurd hlt (Nat.not_lt_zero _)
  | snoc path last ih =>
    obtain ⟨hbefore, hlast⟩ := throughout_snoc.mp hfinished
    exact (ih hbefore).step (within_of_run path) last fun hcommits =>
      settled_of_finished path (hlast hcommits)

theorem acknowledged_iff {log : List M} (h : Run decode outcome { log := log } es t) :
    (∀ e ∈ es, Acknowledged decode e.after) ↔ Throughout CommitsFinished es := by
  constructor
  · rintro hack es₁ e es₂ rfl hcommits offset hunfinished
    obtain ⟨hbefore, hstep, -⟩ := Path.split_iff.mp h
    have hafter := hack e (List.mem_append_right _ List.mem_cons_self)
    exact finished_of_acknowledged hbefore hstep hcommits hafter hunfinished
  · intro hfinished e he
    obtain ⟨es₁, es₂, rfl⟩ := List.append_of_mem he
    have hrun : Run decode outcome { log := log } (es₁ ++ [e]) e.after := by
      obtain ⟨hbefore, hstep, -⟩ := Path.split_iff.mp h
      exact .snoc hbefore hstep
    have hprefix : Throughout CommitsFinished (es₁ ++ [e]) := by
      intro fs₁ f fs₂ heq
      apply hfinished fs₁ f (fs₂ ++ es₂)
      rw [List.append_cons, heq, List.append_assoc, List.cons_append]
    exact acknowledged_of_finished hrun hprefix

end KafkaEventConsumer

theorem reminders_acknowledged_iff {Bytes σ : Type} (p : Pydantic Bytes) (received : Datetime)
    (worker : ReminderWorker) (o : Outside σ) (log : List Bytes)
    (es : List (Event (KafkaEventConsumer.State Bytes) (KafkaEventConsumer.Label Bytes)))
    (t : KafkaEventConsumer.State Bytes)
    (h : KafkaEventConsumer.Run (KafkaEvent.modelValidateJson p received) (worker.outcome o p)
      { log := log } es t) :
    (∀ e ∈ es,
        KafkaEventConsumer.Acknowledged (KafkaEvent.modelValidateJson p received) e.after) ↔
      Throughout KafkaEventConsumer.CommitsFinished es :=
  KafkaEventConsumer.acknowledged_iff h

/-! ### A reminder cut off, and one sent -/

open Sample in
/-- After the restart the loop is past a reminder nobody has sent. -/
theorem shutdown_drops_reminder :
    KafkaEventConsumer.Run decode outcome published shutdown (fetching 1) ∧
    ∃ e ∈ shutdown, e.after = fetching 1 ∧ ¬KafkaEventConsumer.Acknowledged decode e.after := by
  obtain ⟨event, hevent⟩ := decode_message
  refine ⟨run_shutdown, ⟨stopped, .start, fetching 1⟩, by simp [shutdown], rfl, fun h => ?_⟩
  exact List.not_mem_nil (h 0 message Nat.zero_lt_one rfl (by rw [hevent, Option.isSome_some]))

namespace Sample

def sent : State :=
  { log := [message], consumer := some 1, task := some .fetching, returned := [0] }

/-- The reminder is sent, and then the consumer commits and is stopped. -/
def handled : List (Event State (KafkaEventConsumer.Label EventFields)) :=
  [⟨published, .start, fetching 0⟩, ⟨fetching 0, .deliver, waiting⟩, ⟨waiting, .handlerReturns, sent⟩,
    ⟨sent, .commit, { sent with committed := 1 }⟩,
    ⟨{ sent with committed := 1 }, .stop true, { stopped with returned := [0] }⟩]

theorem outcome_message : ∃ event, decode message = some event ∧ outcome event true := by
  have hsent : ((decode message).bind fun event =>
      (({} : ReminderWorker).processEvent (Outside.exact fun _ => true) pydantic 3 event
        { world := start }).map fun r => r.1.isOk) = some true := by decide +kernel
  obtain ⟨event, hevent, hsent⟩ := Option.bind_eq_some_iff.mp hsent
  obtain ⟨⟨result, st'⟩, hprocess, hok⟩ := Option.map_eq_some_iff.mp hsent
  exact ⟨event, hevent, 3, _, result, st', hprocess, hok⟩

theorem run_handled : KafkaEventConsumer.Run decode outcome published handled
    { stopped with returned := [0] } := by
  obtain ⟨event, hevent, hreturns⟩ := outcome_message
  have hstart : KafkaEventConsumer.Step decode outcome published .start (fetching 0) := .start rfl
  have hdeliver : KafkaEventConsumer.Step decode outcome (fetching 0) .deliver waiting :=
    .deliver rfl rfl rfl rfl hevent
  have hsent : KafkaEventConsumer.Step decode outcome waiting .handlerReturns sent :=
    .handlerReturns rfl rfl hevent hreturns
  have hcommit : KafkaEventConsumer.Step decode outcome sent .commit { sent with committed := 1 } :=
    .commit rfl
  have hstop : KafkaEventConsumer.Step decode outcome { sent with committed := 1 } (.stop true)
      { stopped with returned := [0] } := .stop true (by simp [sent])
  exact .cons (e := ⟨_, _, _⟩) hstart (.cons (e := ⟨_, _, _⟩) hdeliver
    (.cons (e := ⟨_, _, _⟩) hsent (.cons (e := ⟨_, _, _⟩) hcommit
      (.cons (e := ⟨_, _, _⟩) hstop .nil))))

theorem handled_finished : Throughout KafkaEventConsumer.CommitsFinished handled := by
  have hidle : ∀ e ∈ handled, KafkaEventConsumer.Commits e.before e.label →
      KafkaEventConsumer.current e.before = [] := by
    simp [handled, KafkaEventConsumer.Commits, KafkaEventConsumer.current, sent]
  have hraised : ∀ e ∈ handled, ∀ offset,
      KafkaEventConsumer.settled e ≠ some (offset, .raised) := by
    simp [handled, KafkaEventConsumer.settled, waiting, sent]
  intro es₁ e es₂ heq hcommits offset hunfinished
  rcases hunfinished with hrunning | hafter
  · have he : e ∈ handled := heq ▸ List.mem_append_right _ List.mem_cons_self
    rw [hidle e he hcommits] at hrunning
    exact absurd hrunning List.not_mem_nil
  · obtain ⟨f, hf, hsettled⟩ := List.mem_filterMap.mp hafter
    have hf : f ∈ es₁ := (List.rtakeWhile_suffix _ _).subset hf
    exact absurd hsettled (hraised f (heq ▸ List.mem_append_left _ hf) offset)

end Sample

open Sample in
/-- Nothing is unfinished at the commits after a send; the reminder is when the client is stopped
during the wait. -/
theorem reminders_acknowledged_iff_handled :
    (∀ e ∈ handled, KafkaEventConsumer.Acknowledged decode e.after) ∧
    ¬Throughout KafkaEventConsumer.CommitsFinished shutdown := by
  constructor
  · have hiff := reminders_acknowledged_iff pydantic noon {} (Outside.exact fun _ => true) [message]
      handled _ run_handled
    exact hiff.mpr handled_finished
  · have hiff := reminders_acknowledged_iff pydantic noon {} (Outside.exact fun _ => true) [message]
      shutdown (fetching 1) run_shutdown
    intro hfinished
    obtain ⟨event, hevent⟩ := decode_message
    have hlost := hiff.mpr hfinished ⟨stopped, .start, fetching 1⟩ (by simp [shutdown])
    exact List.not_mem_nil (hlost 0 message Nat.zero_lt_one rfl (by
      have hdecoded : (decode message).isSome = true := by rw [hevent, Option.isSome_some]
      exact hdecoded))

end CoffeeBuddy
