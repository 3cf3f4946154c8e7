import CoffeeBuddy.Data.Uuid

/-! The exceptions of the services. -/

namespace CoffeeBuddy

inductive OrderError where
  | orderValidation (message field : String)
  | runNotFound (message : String)
  | runNotOpen (message : String)
  | preferenceNotFound (message : String)
  | orderNotFound (message : String)
  | userNotFound (message : String)
deriving DecidableEq

inductive RunCloseError where
  | runNotFound (message : String)
  | runNotOpen (message : String)
  | unauthorizedRunClose (message : String)
  | runnerSelection (message : String)
deriving DecidableEq

inductive AdminError where
  | adminAuthorization (slackUserId reason : String)
  | channelNotFound (slackChannelId : String)
  | channelConfigValidation (field message : String)
deriving DecidableEq

/-- Everything a service call may raise: the repository's own exceptions, the
`ValueError` of `UUID(text)`, the `KeyError` of a dict, and what the database layer raises. -/
inductive Exc where
  | order (error : OrderError)
  | runClose (error : RunCloseError)
  | admin (error : AdminError)
  | valueError
  | keyError
  | multipleResultsFound
  | integrityError
deriving DecidableEq

namespace Exc

/-- `OrderError`, `RunCloseError` or `AdminError`. -/
def Own : Exc → Prop
  | .order _ | .runClose _ | .admin _ => True
  | .valueError | .keyError | .multipleResultsFound | .integrityError => False

/-- Raised by the code itself; an `IntegrityError` comes from a flush, which rolls back. -/
def Raised (e : Exc) : Prop := e ≠ .integrityError

theorem Own.raised {e : Exc} (h : e.Own) : e.Raised := by
  rintro rfl
  exact h

theorem not_raised_integrityError : ¬Raised .integrityError := fun h => h rfl

end Exc
end CoffeeBuddy
