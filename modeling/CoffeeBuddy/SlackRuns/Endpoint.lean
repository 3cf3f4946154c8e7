import CoffeeBuddy.Library.Dict
import CoffeeBuddy.Library.FormData
import CoffeeBuddy.SlackRuns.Parsers
import CoffeeBuddy.SlackRuns.Service
import CoffeeBuddy.SlackRuns.Signature

/-! `handle_slack_command` from the request on: the signature over its body, the form in it,
the text of the command and the service behind. -/

namespace CoffeeBuddy
open Relational

/-! ### The form -/

/-- `parse_qs` with the first of the values of each name. -/
def firstValues (fields : List (String × String)) : Dict String String :=
  fields.foldl (fun d f => if (d.get? f.1).isSome then d else d.set f.1 f.2) Table.empty

/-- `_parse_form_payload`; `none` is the `UnicodeDecodeError` of the body. -/
def parseFormPayload (body : ByteArray) : Option (Dict String String) :=
  (String.fromUTF8? body).map fun text =>
    firstValues ((FormData.parseQsl text.toList).map fun f => (.ofList f.1, .ofList f.2))

def formValue (payload : Dict String String) (name : String) : String :=
  (payload.get? name).getD ""

def SlackCommandPayload.ofForm (payload : Dict String String) : SlackCommandPayload :=
  { token := formValue payload "token"
    teamId := formValue payload "team_id"
    channelId := formValue payload "channel_id"
    channelName := formValue payload "channel_name"
    userId := formValue payload "user_id"
    userName := formValue payload "user_name"
    text := formValue payload "text"
    triggerId := formValue payload "trigger_id"
    responseUrl := formValue payload "response_url" }

/-! ### The route -/

structure SlackRequest where
  timestamp : Option String
  signature : Option String
  body : ByteArray

/-- What the route draws while it serves a request: `time.time()`, the clock at each word of
the text, the clock and the ids of the service. -/
structure RequestDraws where
  time : ℚ
  clock : ℕ → Datetime
  now : Datetime
  runId : Uuid
  correlationId : Uuid
  faults : Faults := {}

/-- The settings the route reads; a shorter secret is refused when they are loaded. -/
structure Config.Settings where
  slackSigningSecret : String
  slackTimestampToleranceSeconds : ℤ := 300
  minLength : 16 ≤ slackSigningSecret.length

structure StandardLibrary where
  hmac : ByteArray → ByteArray → List UInt8
  lower : String → String
  fromisoformat : String → Option Datetime

inductive RouteError where
  | httpException (statusCode : ℕ) (detail : String)
  | verify (error : VerifyError)
  | unicodeDecodeError
  | shlex (failure : Shlex.Failure)
  | request (error : RequestError)

section Route
variable (lib : StandardLibrary) (settings : Config.Settings)

def Config.Settings.verifier : SlackSignatureVerifier :=
  .init settings.slackSigningSecret settings.slackTimestampToleranceSeconds

def checkSignature (r : SlackRequest) (d : RequestDraws) : Except VerifyError Unit :=
  settings.verifier.verify lib.hmac d.time r.timestamp r.signature r.body

def RequestDraws.slashCommand (d : RequestDraws) (command : SlackCommandPayload)
    (options : RunCommandOptions) : SlashCommand :=
  { command, options, now := d.now, runId := d.runId, correlationId := d.correlationId
    faults := d.faults }

def readCommand (r : SlackRequest) (d : RequestDraws) : Except RouteError SlashCommand :=
  match parseFormPayload r.body with
  | none => .error .unicodeDecodeError
  | some payload =>
    let command := SlackCommandPayload.ofForm payload
    match parseCommandText lib.lower lib.fromisoformat d.clock command.text with
    | .error failure => .error (.shlex failure)
    | .ok options => .ok (d.slashCommand command options)

variable {σ : Type} (insert : Models.Run → σ → Option σ)

/-- The route. What raises before the service has written nothing, so that the rollback of its
session has nothing to undo. -/
def respond (r : SlackRequest) (d : RequestDraws) (p : Platform σ) :
    Except RouteError Json × Platform σ :=
  match authenticate (checkSignature lib settings r d) with
  | .httpException statusCode detail => (.error (.httpException statusCode detail), p)
  | .raised error => (.error (.verify error), p)
  | .accepted =>
    match readCommand lib r d with
    | .error error => (.error error, p)
    | .ok c =>
      let (result, q) := serve insert c p
      (result.mapError .request, q)

end Route

/-! ### What the form holds -/

theorem get?_foldl_firstValues (fields : List (String × String)) (d : Dict String String)
    (name : String) :
    (fields.foldl (fun d f => if (d.get? f.1).isSome then d else d.set f.1 f.2) d).get? name =
      (d.get? name).or (fields.lookup name) := by
  induction fields generalizing d with
  | nil => exact (Option.or_none).symm
  | cons f fields ih =>
    rw [List.foldl_cons, ih, List.lookup_cons]
    cases hf : d.get? f.1 with
    | some value =>
      rw [Option.isSome_some, if_pos rfl]
      by_cases hname : name = f.1
      · rw [hname, hf]
        rfl
      · rw [beq_false_of_ne hname]
    | none =>
      rw [Option.isSome_none, if_neg Bool.false_ne_true]
      by_cases hname : name = f.1
      · have hset : (d.set f.1 f.2).get? f.1 = some f.2 :=
          Dict.get?_eq_some.mpr ((Dict.mem_set_new hf).mpr (Or.inr rfl))
        rw [hname, hset, hf, beq_self_eq_true]
        rfl
      · rw [Dict.get?_set_new hf hname, beq_false_of_ne hname]

theorem get?_firstValues (fields : List (String × String)) (name : String) :
    (firstValues fields).get? name = fields.lookup name := by
  rw [firstValues, get?_foldl_firstValues]
  rfl

end CoffeeBuddy
