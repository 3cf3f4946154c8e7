import CoffeeBuddy.Library.LastWrite
import CoffeeBuddy.SlackRuns.Parsers
import CoffeeBuddy.SlackRuns.Service

/-! What the parser of the command text promises. Malformed parameters are reported as errors
of the options and answered with a hint; a text that `shlex` cannot split is not. -/

namespace CoffeeBuddy
open Transaction

inductive OptionField where
  | pickupTime
  | pickupNote
deriving DecidableEq

/-- A value for a field of the options. -/
inductive Setting where
  | pickupTime (t : PickupTime)
  | pickupNote (note : String)

def Setting.field : Setting → OptionField
  | .pickupTime _ => .pickupTime
  | .pickupNote _ => .pickupNote

namespace RunCommandOptions

def set (options : RunCommandOptions) : Setting → RunCommandOptions
  | .pickupTime t => { options with pickupTime := some t }
  | .pickupNote note => { options with pickupNote := some note }

def get (options : RunCommandOptions) : OptionField → Option Setting
  | .pickupTime => options.pickupTime.map .pickupTime
  | .pickupNote => options.pickupNote.map .pickupNote

variable (options : RunCommandOptions)

theorem get_set (s : Setting) :
    (options.set s).get = Function.update options.get s.field (some s) := by
  funext f
  cases s with
  | pickupTime t => cases f <;> rfl
  | pickupNote note => cases f <;> rfl

theorem errors_set (s : Setting) : (options.set s).errors = options.errors := by
  cases s <;> rfl

theorem get_report (message : String) : (options.report message).get = options.get := by
  funext f
  cases f <;> rfl

theorem get_pickupTime {t : PickupTime} :
    options.get .pickupTime = some (.pickupTime t) ↔ options.pickupTime = some t := by
  simp only [get, Option.map_eq_some_iff, Setting.pickupTime.injEq, exists_eq_right]

theorem get_pickupNote {note : String} :
    options.get .pickupNote = some (.pickupNote note) ↔ options.pickupNote = some note := by
  simp only [get, Option.map_eq_some_iff, Setting.pickupNote.injEq, exists_eq_right]

end RunCommandOptions

section Settings
variable (lower : String → String) (fromisoformat : String → Option Datetime)

/-- What a word with a known key and a valid value sets. -/
def setting (token : String × Datetime) : Option Setting :=
  (splitParameter token.1).bind fun parameter =>
    if lower parameter.1 ∈ ["pickup", "pickup_time"] then
      (parsePickupTime fromisoformat token.2 (strip parameter.2)).map .pickupTime
    else if lower parameter.1 ∈ ["note", "pickup_note"] ∧ (strip parameter.2).length ≤ 120 then
      some (.pickupNote (strip parameter.2))
    else none

/-- A word without a `=` is not a parameter. -/
def ValidWord (token : String × Datetime) : Prop :=
  '=' ∈ token.1.toList → (setting lower fromisoformat token).isSome

def wordWrite (token : String × Datetime) : Option (OptionField × Setting) :=
  (setting lower fromisoformat token).map fun s => (s.field, s)

/-- The words set it, and no later word sets the field again. -/
def LastSet (tokens : List (String × Datetime)) (s : Setting) : Prop :=
  LastWrite.IsLast (wordWrite lower fromisoformat) (fun _ _ => False) tokens s.field s

variable (clock : ℕ → Datetime) (text : String)

def WellFormed : Prop := ∃ tokens, shlexSplit (strip text) = .ok tokens ∧
  ∀ token ∈ timed clock tokens, ValidWord lower fromisoformat token

/-- The parser comes back with the settings of a well-formed text, and with errors for any
other, which the route answers with a hint alone. -/
def Reports : Prop :=
  ∃ options, parseCommandText lower fromisoformat clock text = .ok options ∧
    (options.hasErrors = false ↔ WellFormed lower fromisoformat clock text) ∧
    (WellFormed lower fromisoformat clock text →
      ∀ tokens, shlexSplit (strip text) = .ok tokens →
        (∀ t, options.pickupTime = some t ↔
          LastSet lower fromisoformat (timed clock tokens) (.pickupTime t)) ∧
        ∀ note, options.pickupNote = some note ↔
          LastSet lower fromisoformat (timed clock tokens) (.pickupNote note)) ∧
    (¬WellFormed lower fromisoformat clock text →
      ∃ messages, options.errors = some messages ∧ messages ≠ [] ∧
        ∀ (σ : Type) (insert : Models.Run → σ → Option σ) (p : Platform σ) (c : SlashCommand),
          c.options = options → (handleSlackCommand insert c).exec p =
            (.ok (ephemeral ("\n".intercalate messages)), p))

end Settings

/-! ### One word, and all of them -/

section Words
variable {lower : String → String} {fromisoformat : String → Option Datetime} {token : String}
  {now : Datetime} {options : RunCommandOptions}

theorem splitParameter_isSome : (splitParameter token).isSome ↔ '=' ∈ token.toList := by
  unfold splitParameter
  split_ifs with h
  · exact iff_of_true rfl h
  · exact iff_of_false Bool.false_ne_true h

theorem applyToken_plain (h : splitParameter token = none) :
    applyToken lower fromisoformat now token options = options := by
  simp only [applyToken, h]

theorem applyToken_set {s : Setting} (h : setting lower fromisoformat (token, now) = some s) :
    applyToken lower fromisoformat now token options = options.set s := by
  obtain ⟨⟨key, value⟩, hsplit, hsets⟩ := Option.bind_eq_some_iff.mp h
  simp only [applyToken, hsplit]
  dsimp only at hsets
  split_ifs at hsets with hpickup hnote
  · obtain ⟨t, ht, rfl⟩ := Option.map_eq_some_iff.mp hsets
    rw [if_pos hpickup, applyPickupTime, ht]
    rfl
  · obtain rfl := Option.some.inj hsets
    rw [if_neg hpickup, if_pos hnote.1, if_neg (not_lt.mpr hnote.2)]
    rfl

theorem applyToken_report (h : setting lower fromisoformat (token, now) = none)
    (htoken : (splitParameter token).isSome) :
    ∃ message, applyToken lower fromisoformat now token options = options.report message := by
  obtain ⟨⟨key, value⟩, hsplit⟩ := Option.isSome_iff_exists.mp htoken
  unfold setting at h
  rw [hsplit, Option.bind_some] at h
  simp only [applyToken, hsplit]
  dsimp only at h
  split_ifs at h with hpickup hnote
  · rw [if_pos hpickup, applyPickupTime, Option.map_eq_none_iff.mp h]
    exact ⟨_, rfl⟩
  · rw [if_neg hpickup]
    split_ifs with hkey hlong
    · exact ⟨_, rfl⟩
    · exact absurd ⟨hkey, not_lt.mp hlong⟩ hnote
    · exact ⟨_, rfl⟩

theorem applyTokens_concat (tokens : List (String × Datetime)) (token : String × Datetime) :
    applyTokens lower fromisoformat (tokens ++ [token]) =
      applyToken lower fromisoformat token.2 token.1 (applyTokens lower fromisoformat tokens) := by
  simp only [applyTokens, List.foldl_append, List.foldl_cons, List.foldl_nil]

/-- The fields hold what was set last. -/
theorem get_applyTokens (lower : String → String) (fromisoformat : String → Option Datetime)
    (tokens : List (String × Datetime)) :
    (applyTokens lower fromisoformat tokens).get =
      LastWrite.contents (wordWrite lower fromisoformat) (fun _ _ => False) tokens := by
  induction tokens using List.reverseRecOn with
  | nil =>
    funext f
    cases f <;> rfl
  | append_singleton tokens token ih =>
    rw [applyTokens_concat, LastWrite.contents_snoc, ← ih]
    -- a word that sets nothing is plain or reported, and neither touches the fields
    cases hs : setting lower fromisoformat token with
    | some s =>
      have hwrite : wordWrite lower fromisoformat token = some (s.field, s) := by
        rw [wordWrite, hs, Option.map_some]
      rw [LastWrite.written_of_write hwrite, applyToken_set hs, RunCommandOptions.get_set]
      simp only [if_false]
    | none =>
      have hwrite : wordWrite lower fromisoformat token = none := by
        rw [wordWrite, hs, Option.map_none]
      rw [LastWrite.written_of_none hwrite]
      simp only [if_false]
      cases hsplit : splitParameter token.1 with
      | none => rw [applyToken_plain hsplit]
      | some parameter =>
        obtain ⟨message, hreport⟩ := applyToken_report hs (Option.isSome_of_eq_some hsplit)
        rw [hreport, RunCommandOptions.get_report]

/-- There are errors when a word is invalid, and only then. -/
theorem errors_applyTokens (lower : String → String) (fromisoformat : String → Option Datetime)
    (tokens : List (String × Datetime)) :
    ∃ messages, (applyTokens lower fromisoformat tokens).errors = some messages ∧
      (messages = [] ↔ ∀ token ∈ tokens, ValidWord lower fromisoformat token) := by
  induction tokens using List.reverseRecOn with
  | nil => exact ⟨[], rfl, iff_of_true rfl fun token h => absurd h List.not_mem_nil⟩
  | append_singleton tokens token ih =>
    obtain ⟨messages, herrors, hvalid⟩ := ih
    simp only [List.forall_mem_append, List.forall_mem_singleton, ← hvalid]
    rw [applyTokens_concat]
    cases hs : setting lower fromisoformat token with
    | some s =>
      have hok : ValidWord lower fromisoformat token := fun _ => by rw [hs, Option.isSome_some]
      rw [applyToken_set hs, RunCommandOptions.errors_set]
      exact ⟨messages, herrors, (and_iff_left hok).symm⟩
    | none =>
      cases hsplit : splitParameter token.1 with
      | none =>
        have hok : ValidWord lower fromisoformat token := fun hmem => by
          have hsome := splitParameter_isSome.mpr hmem
          rw [hsplit] at hsome
          exact absurd hsome Bool.false_ne_true
        rw [applyToken_plain hsplit]
        exact ⟨messages, herrors, (and_iff_left hok).symm⟩
      | some parameter =>
        have hsome := Option.isSome_of_eq_some hsplit
        have hbad : ¬ValidWord lower fromisoformat token := fun hok => by
          have hset := hok (splitParameter_isSome.mp hsome)
          rw [hs] at hset
          exact absurd hset Bool.false_ne_true
        obtain ⟨message, hreport⟩ := applyToken_report hs hsome
        refine ⟨messages ++ [message], ?_, iff_of_false (by simp) fun h => hbad h.2⟩
        rw [hreport, RunCommandOptions.report, herrors, Option.getD_some]

end Words

/-! ### The text -/

section Text
variable {lower : String → String} {fromisoformat : String → Option Datetime}
  {clock : ℕ → Datetime} {text : String}

theorem shlexSplit_isOk : (shlexSplit text).isOk ↔ Shlex.Closed posix text.toList := by
  rw [← Shlex.split_isOk, shlexSplit]
  cases Shlex.split posix text.toList with
  | ok tokens => exact Iff.rfl
  | error failure => exact Iff.rfl

/-- The tokens of an empty text are handled as those of any other. -/
theorem parseCommandText_of_split (lower : String → String)
    (fromisoformat : String → Option Datetime) (clock : ℕ → Datetime) {tokens : List String}
    (h : shlexSplit (strip text) = .ok tokens) :
    ∃ options, parseCommandText lower fromisoformat clock text = .ok options ∧
      options.get = (applyTokens lower fromisoformat (timed clock tokens)).get ∧
      options.errors.getD [] =
        (applyTokens lower fromisoformat (timed clock tokens)).errors.getD [] := by
  unfold parseCommandText
  by_cases hempty : strip text = ""
  · rw [hempty] at h
    obtain rfl := Except.ok.inj h
    simp only [hempty, if_true]
    exact ⟨_, rfl, rfl, rfl⟩
  · simp only [hempty, if_false, h, Except.map]
    refine ⟨_, rfl, ?_⟩
    split_ifs with herrors
    · exact ⟨rfl, rfl⟩
    · refine ⟨by funext f; cases f <;> rfl, ?_⟩
      simpa [RunCommandOptions.hasErrors] using herrors

theorem not_reports_of_error {failure : Shlex.Failure} (hempty : strip text ≠ "")
    (h : shlexSplit (strip text) = .error failure) :
    ¬Reports lower fromisoformat clock text := by
  rintro ⟨options, hok, -⟩
  simp only [parseCommandText, hempty, if_false, h, Except.map] at hok
  exact nomatch hok

theorem exec_handleSlackCommand_of_errors {σ : Type} {insert : Models.Run → σ → Option σ}
    {p : Platform σ} {c : SlashCommand} (h : c.options.hasErrors = true) :
    (handleSlackCommand insert c).exec p =
      (.ok (ephemeral ("\n".intercalate (c.options.errors.getD []))), p) := by
  unfold handleSlackCommand
  rw [if_pos h]
  rfl

theorem hasErrors_eq_false {options : RunCommandOptions} :
    options.hasErrors = false ↔ options.errors.getD [] = [] := by
  simp only [RunCommandOptions.hasErrors, Bool.not_eq_false', List.isEmpty_iff]

theorem reports_of_split {tokens : List String} (h : shlexSplit (strip text) = .ok tokens) :
    Reports lower fromisoformat clock text := by
  obtain ⟨options, hparse, hget, herrors⟩ :=
    parseCommandText_of_split lower fromisoformat clock h
  obtain ⟨messages, hmessages, hvalid⟩ :=
    errors_applyTokens lower fromisoformat (timed clock tokens)
  rw [hmessages, Option.getD_some] at herrors
  -- an error was reported for every word that is no valid parameter
  have hwell : WellFormed lower fromisoformat clock text ↔ messages = [] := by
    rw [hvalid]
    constructor
    · rintro ⟨tokens', htokens, hall⟩
      obtain rfl := Except.ok.inj (h.symm.trans htokens)
      exact hall
    · exact fun hall => ⟨tokens, h, hall⟩
  refine ⟨options, hparse, ?_, fun _ tokens' htokens => ?_, fun hbad => ?_⟩
  · rw [hasErrors_eq_false, herrors, hwell]
  · obtain rfl := Except.ok.inj (h.symm.trans htokens)
    have hlast : ∀ s : Setting, options.get s.field = some s ↔
        LastSet lower fromisoformat (timed clock tokens) s := fun s => by
      rw [hget, get_applyTokens]
      exact LastWrite.contents_eq_some
    exact ⟨fun t => options.get_pickupTime.symm.trans (hlast (.pickupTime t)),
      fun note => options.get_pickupNote.symm.trans (hlast (.pickupNote note))⟩
  · have hne : messages ≠ [] := fun hnil => hbad (hwell.mpr hnil)
    have hsome : options.errors = some messages := by
      cases hoptions : options.errors with
      | none =>
        rw [hoptions] at herrors
        exact absurd herrors.symm hne
      | some messages' =>
        rw [hoptions] at herrors
        exact congrArg some herrors
    refine ⟨messages, hsome, hne, fun σ insert p c hc => ?_⟩
    have htrue : c.options.hasErrors = true := by
      rw [← Bool.not_eq_false, hasErrors_eq_false, hc, hsome]
      exact hne
    rw [exec_handleSlackCommand_of_errors htrue, hc, hsome, Option.getD_some]

end Text

theorem reports_iff_closed (lower : String → String) (fromisoformat : String → Option Datetime)
    (clock : ℕ → Datetime) (text : String) : Reports lower fromisoformat clock text ↔
      Shlex.Closed posix (strip text).toList := by
  rw [← shlexSplit_isOk]
  cases h : shlexSplit (strip text) with
  | ok tokens => exact iff_of_true (reports_of_split h) rfl
  | error failure =>
    refine iff_of_false (not_reports_of_error (fun hempty => ?_) h) Bool.false_ne_true
    rw [hempty] at h
    exact nomatch h

namespace Sample

def midnight : Datetime := ⟨0, some 0, by decide, by decide⟩

end Sample

/-- An apostrophe in a note. -/
theorem apostrophe_not_reported :
    ¬Reports id (fun _ => none) (fun _ => Sample.midnight) "note=don't forget milk" := by
  have hsplit : shlexSplit (strip "note=don't forget milk") = .error .noClosingQuotation := by
    decide +kernel
  exact not_reports_of_error (by decide +kernel) hsplit

end CoffeeBuddy
