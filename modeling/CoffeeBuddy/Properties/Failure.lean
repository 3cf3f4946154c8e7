import CoffeeBuddy.Services.History

/-! Refused calls. Every service reads and checks before it writes, so the exceptions
of the repository find the tables untouched; the one exit of `close_run` that lies
behind a write cannot be taken. -/

namespace CoffeeBuddy
open Relational Transaction

/-- Every call checks before it writes. -/
theorem Call.failsClean (s : Database) (c : Call) (db : Db) :
    (c.tx s).FailsClean Exc.Raised db := by
  intro e t h he
  have hstep : step s db (c, .error e) t := ⟨t, h, (if_neg he).symm⟩
  exact failed_step hstep

namespace CloseRunService
variable {authorizer : CloseRunAuthorizer} {collation : Collation} {request : CloseRunRequest}
  {now : Timestamp} {d : Draws} {db t : Db}

theorem raises_getRun {runId : String} {e : Exc} (h : (getRun runId).Raises db e t) :
    e = .valueError ∨ ∃ message, e = .runClose (.runNotFound message) := by
  rw [getRun_eq, Program.raises_bind, raises_asUuid] at h
  rcases h with ⟨-, rfl, -⟩ | ⟨_, _, -, h⟩
  · exact Or.inl rfl
  · exact Or.inr ⟨_, raises_rowUnder h⟩

theorem raises_checkClosable {run : Run} {e : Exc}
    (h : (checkClosable authorizer request run).Raises db e t) :
    (∃ message, e = .runClose (.runNotOpen message)) ∨
      ∃ message, e = .runClose (.unauthorizedRunClose message) := by
  unfold checkClosable at h
  split_ifs at h
  · exact Or.inl ⟨_, (raises_tx_raise.mp h).1⟩
  · exact absurd h Program.raises_pure
  · exact Or.inr ⟨_, (raises_tx_raise.mp h).1⟩

theorem raises_getChannel {id : Uuid} {e : Exc} (h : (getChannel id).Raises db e t) :
    ∃ message, e = .runClose (.runNotFound message) := by
  rw [getChannel_eq] at h
  exact ⟨_, raises_rowUnder h⟩

theorem raises_loadActiveOrders {id : Uuid} {e : Exc}
    (h : (loadActiveOrders collation id).Raises db e t) :
    e = .runClose (.runnerSelection "Cannot close run without active participant orders.") := by
  simp only [loadActiveOrders, Program.raises_bind, Program.raises_query, false_or] at h
  obtain ⟨orders, _, -, h⟩ := h
  split_ifs at h
  · exact (raises_tx_raise.mp h).1
  · exact absurd h Program.raises_pure

/-- The only `RunnerSelectionError` of a close is the one of a run without active orders. -/
theorem raises_runnerSelection {message : String}
    (h : (closeRun authorizer collation request now d).Raises db
      (.runClose (.runnerSelection message)) t) :
    message = "Cannot close run without active participant orders." := by
  unfold closeRun at h
  rcases Program.raises_bind.mp h with h | ⟨run, _, hrun, h⟩
  · rcases raises_getRun h with h | ⟨_, h⟩ <;> cases h
  rcases Program.raises_bind.mp h with h | ⟨_, _, hcheck, h⟩
  · rcases raises_checkClosable h with ⟨_, h⟩ | ⟨_, h⟩ <;> cases h
  rcases Program.raises_bind.mp h with h | ⟨channel, _, hchannel, h⟩
  · obtain ⟨_, h⟩ := raises_getChannel h
    cases h
  rcases Program.raises_bind.mp h with h | ⟨orders, u, horders, h⟩
  · simpa using raises_loadActiveOrders h
  obtain ⟨rfl, hne, rfl⟩ := returns_loadActiveOrders.mp horders
  rcases Program.raises_bind.mp h with h | ⟨last, _, hlast, h⟩
  · exact absurd h Program.raises_query
  obtain ⟨-, rfl⟩ := Program.returns_query.mp hlast
  exact absurd (raises_closeRun_of_reads hne h) (by simp)

theorem runner_message_ne (runner : String) :
    s!"Runner {runner} missing from persistence during close." ≠
      "Cannot close run without active participant orders." := by
  intro h
  have hstart : ("Runner " ++ runner ++ " missing from persistence during close.").toList.head? =
      some 'R' := by simp
  have hhead := hstart.symm.trans (congrArg (fun m : String => m.toList.head?) h)
  exact absurd hhead (by decide)

end CloseRunService

theorem refused_call_keeps_tables (s : Database) (db t : Db) (c : Call) (e : Exc)
    (h : (c.tx s).Raises db e t) (he : e.Own) :
    t = db ∧ ∀ (authorizer : CloseRunAuthorizer) (request : CloseRunRequest) (now : Timestamp)
      (d : Draws) (runner : String), c = .closeRun authorizer request now d →
        e ≠ .runClose (.runnerSelection
          s!"Runner {runner} missing from persistence during close.") := by
  refine ⟨c.failsClean s db e t h he.raised, ?_⟩
  rintro authorizer request now d runner rfl rfl
  simp only [Call.tx, Program.raises_bind, Program.raises_pure, and_false, exists_false,
    or_false] at h
  exact CloseRunService.runner_message_ne runner (CloseRunService.raises_runnerSelection h)

/-- An open run nobody ordered in. -/
def Sample.unordered : Db := opened

open Sample in
theorem refused_call_keeps_tables_unordered :
    (((close 1 11 true).tx database).exec unordered).2 = unordered :=
  (refused_call_keeps_tables database unordered (((close 1 11 true).tx database).exec unordered).2
    (close 1 11 true)
    (.runClose (.runnerSelection "Cannot close run without active participant orders."))
    rfl trivial).1

end CoffeeBuddy
