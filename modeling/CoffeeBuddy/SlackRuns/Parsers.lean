import CoffeeBuddy.Library.Shlex
import CoffeeBuddy.Data.Integers
import CoffeeBuddy.SlackRuns.Messages

/-! `parse_command_text`: the words of a command's text, the parameters among them, and the
options they set. `str.lower` and `datetime.fromisoformat` are parameters; the clock is read
once for each word. -/

namespace CoffeeBuddy

/-- The characters of `shlex.shlex(posix=True)`. -/
def posix : Shlex.Lexicon where
  blank c := [' ', '\t', '\r', '\n'].contains c
  quote c := c = '\'' || c = '"'
  escaping q := q = '"'
  escape := '\\'
  escape_plain := by decide
  blank_plain c h := by
    simp only [List.contains_cons, List.contains_nil, Bool.or_false, Bool.or_eq_true,
      beq_iff_eq] at h
    rcases h with rfl | rfl | rfl | rfl <;> decide

/-- `token.split("=", 1)`; `none` without a `=`. -/
def splitParameter (token : String) : Option (String × String) :=
  if '=' ∈ token.toList then
    some (.ofList (token.toList.takeWhile (· ≠ '=')),
      .ofList (token.toList.dropWhile (· ≠ '=')).tail)
  else none

/-- `datetime.combine(now.date(), time(hour, minute), tzinfo=utc)`; `none` is the `ValueError`
of `time`. -/
def atTime (now : Datetime) (h m : ℤ) : Option PickupTime :=
  if hrange : (0 ≤ h ∧ h ≤ 23) ∧ 0 ≤ m ∧ m ≤ 59 then
    some { wall := now.wall - now.wall % day + h * hour + m * minute
           utcoffset := some 0
           inRange := by
            obtain ⟨hlow, hhigh⟩ := now.inRange
            simp only [wallMin, wallMax, day, hour, minute, second] at *
            omega
           aware := rfl }
  else none

def PickupTime.ofParsed (parsed : Datetime) : PickupTime :=
  match h : parsed.utcoffset with
  | some _ => ⟨parsed, by rw [h]; rfl⟩
  | none => ⟨parsed.replaceUtc, rfl⟩

section Parser
variable (lower : String → String) (fromisoformat : String → Option Datetime)

/-- `_parse_pickup_time`; `none` is a `ValueError`. -/
def parsePickupTime (now : Datetime) (value : String) : Option PickupTime :=
  if value.length = 5 ∧ value.toList[2]? = some ':' then
    match (value.toList.splitOn ':').map fun piece => parseInt (.ofList piece) with
    | [some h, some m] => atTime now h m
    | _ => none
  else (fromisoformat value).map .ofParsed

def RunCommandOptions.report (options : RunCommandOptions) (message : String) :
    RunCommandOptions :=
  { options with errors := some (options.errors.getD [] ++ [message]) }

def applyPickupTime (now : Datetime) (value : String) (options : RunCommandOptions) :
    RunCommandOptions :=
  match parsePickupTime fromisoformat now value with
  | some t => { options with pickupTime := some t }
  | none => options.report "pickup_time must be ISO-8601 date-time or HH:MM (24h)."

def applyToken (now : Datetime) (token : String) (options : RunCommandOptions) :
    RunCommandOptions :=
  match splitParameter token with
  | none => options
  | some (key, value) =>
    let key := lower key
    let value := strip value
    if key ∈ ["pickup", "pickup_time"] then applyPickupTime fromisoformat now value options
    else if key ∈ ["note", "pickup_note"] then
      if 120 < value.length then options.report "Pickup note must be <= 120 characters."
      else { options with pickupNote := some value }
    else options.report s!"Unknown parameter '{key}'."

def applyTokens (tokens : List (String × Datetime)) : RunCommandOptions :=
  tokens.foldl (fun options token => applyToken lower fromisoformat token.2 token.1 options)
    { errors := some [] }

def shlexSplit (text : String) : Except Shlex.Failure (List String) :=
  (Shlex.split posix text.toList).map fun tokens => tokens.map .ofList

variable (clock : ℕ → Datetime)

def timed (tokens : List String) : List (String × Datetime) :=
  tokens.zipIdx.map fun token => (token.1, clock token.2)

/-- Errors are those of `shlex.split`, which nobody catches. -/
def parseCommandText (text : String) : Except Shlex.Failure RunCommandOptions :=
  let normalized := strip text
  if normalized = "" then .ok { errors := some [] }
  else (shlexSplit normalized).map fun tokens =>
    let options := applyTokens lower fromisoformat (timed clock tokens)
    if options.hasErrors then options else { options with errors := none }

example : let now : Datetime := ⟨0, some 0, by decide, by decide⟩
    (parseCommandText id (fun _ => none) (fun _ => now)
      "now pickup=09:30 note=\"two words\" size=L").map (fun options =>
        (options.pickupTime.map fun t => t.wall, options.pickupNote, options.errors)) =
      .ok (some (9 * hour + 30 * minute), some "two words", some ["Unknown parameter 'size'."]) := by
  decide +kernel

end Parser
end CoffeeBuddy
