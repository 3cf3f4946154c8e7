import CoffeeBuddy.Properties.RunEvents
import CoffeeBuddy.Properties.Signature
import CoffeeBuddy.SlackRuns.Endpoint

/-! The slash command from the wire to the tables: a form is read as it was meant however it is
coded, a signed request is served as the command in its form, and no run and no event comes
from anything else. -/

namespace CoffeeBuddy
open Relational

/-! ### Coded forms -/

/-- The fields of a command under their names in the form. -/
def SlackCommandPayload.fields (command : SlackCommandPayload) : List (String × String) :=
  [("token", command.token), ("team_id", command.teamId), ("channel_id", command.channelId),
   ("channel_name", command.channelName), ("user_id", command.userId),
   ("user_name", command.userName), ("text", command.text), ("trigger_id", command.triggerId),
   ("response_url", command.responseUrl)]

/-- The body is a form of the fields, each coded in some way. -/
def CodesForm (fields : List (String × String)) (body : ByteArray) : Prop :=
  ∃ texts, List.Forall₂ FormData.CodesField (fields.map fun f => (f.1.toList, f.2.toList)) texts ∧
    body = (String.ofList (['&'].intercalate texts)).toUTF8

section Forms
variable {fields : List (String × String)} {name value : String} {body : ByteArray}

theorem parseFormPayload_codes (h : CodesForm fields body) :
    parseFormPayload body = some (firstValues (fields.filter fun f => f.2 ≠ "")) := by
  obtain ⟨texts, hcodes, rfl⟩ := h
  have htext : String.fromUTF8? (String.ofList (['&'].intercalate texts)).toUTF8 =
      some (String.ofList (['&'].intercalate texts)) := fromUTF8?_eq_some.mpr rfl
  have hempty : ∀ s : String, s.toList = [] ↔ s = "" := fun s =>
    ⟨fun h => String.toList_injective h, fun h => congrArg String.toList h⟩
  have hback : ((fields.map fun f => (f.1.toList, f.2.toList)).filter fun f => f.2 ≠ []).map
      (fun f => (String.ofList f.1, String.ofList f.2)) = fields.filter fun f => f.2 ≠ "" := by
    rw [List.filter_map, List.map_map]
    simp only [Function.comp_def, String.ofList_toList, Prod.mk.eta, List.map_id', ne_eq, hempty]
  rw [parseFormPayload, htext, Option.map_some, String.toList_ofList, FormData.parseQsl_codes hcodes,
    hback]

theorem lookup_eq_head? :
    fields.lookup name = ((fields.filter fun f => f.1 = name).head?).map Prod.snd := by
  induction fields with
  | nil => rfl
  | cons f fields ih =>
    rw [List.lookup_cons, List.filter_cons]
    by_cases hname : f.1 = name
    · rw [if_pos (decide_eq_true hname), hname, beq_self_eq_true]
      rfl
    · rw [if_neg (mt of_decide_eq_true hname), beq_false_of_ne (Ne.symm hname)]
      exact ih

/-- Fields under other names do not matter, whatever they are and however often they come. -/
theorem formValue_eq : formValue (firstValues (fields.filter fun f => f.2 ≠ "")) name =
    ((((fields.filter fun f => f.1 = name).filter fun f => f.2 ≠ "").head?).map Prod.snd).getD
      "" := by
  unfold formValue
  rw [get?_firstValues, lookup_eq_head?, List.filter_comm]

/-- An empty field is dropped, and read as a missing one is. -/
theorem formValue_of_only (h : (fields.filter fun f => f.1 = name) = [(name, value)]) :
    formValue (firstValues (fields.filter fun f => f.2 ≠ "")) name = value := by
  rw [formValue_eq, h, List.filter_cons]
  by_cases hempty : value = ""
  · rw [if_neg (mt of_decide_eq_true (not_not.mpr hempty)), hempty]
    rfl
  · rw [if_pos (decide_eq_true hempty)]
    rfl

theorem formValue_of_notMem (h : name ∉ fields.map Prod.fst) :
    formValue (firstValues (fields.filter fun f => f.2 ≠ "")) name = "" := by
  have hnone : (fields.filter fun f => f.1 = name) = [] := by
    rw [List.filter_eq_nil_iff]
    intro f hf hname
    apply h
    rw [← of_decide_eq_true hname]
    exact List.mem_map_of_mem hf
  rw [formValue_eq, hnone]
  rfl

theorem ofForm_eq {command : SlackCommandPayload} {payload : Dict String String}
    (h : ∀ f ∈ command.fields, formValue payload f.1 = f.2) : .ofForm payload = command := by
  simp only [SlackCommandPayload.fields, List.forall_mem_cons] at h
  obtain ⟨h₁, h₂, h₃, h₄, h₅, h₆, h₇, h₈, h₉, -⟩ := h
  unfold SlackCommandPayload.ofForm
  rw [h₁, h₂, h₃, h₄, h₅, h₆, h₇, h₈, h₉]

end Forms

/-- The form has each field of the command once, among any others, and may leave out empty
ones. -/
def CarriesCommand (command : SlackCommandPayload) (fields : List (String × String)) : Prop :=
  ∀ f ∈ command.fields, (fields.filter fun g => g.1 = f.1) = [f] ∨
    f.2 = "" ∧ f.1 ∉ fields.map Prod.fst

theorem ofForm_of_codes {command : SlackCommandPayload} {fields : List (String × String)}
    {body : ByteArray} (hfields : CarriesCommand command fields) (h : CodesForm fields body) :
    ∃ payload, parseFormPayload body = some payload ∧ .ofForm payload = command := by
  refine ⟨_, parseFormPayload_codes h, ofForm_eq fun f hf => ?_⟩
  rcases hfields f hf with honly | ⟨hempty, hmissing⟩
  · exact formValue_of_only honly
  · exact (formValue_of_notMem hmissing).trans hempty.symm

theorem form_read_back (command : SlackCommandPayload) (fields : List (String × String))
    (body : ByteArray) (hfields : CarriesCommand command fields) (h : CodesForm fields body) :
    (parseFormPayload body).map .ofForm = some command := by
  obtain ⟨payload, hpayload, hcommand⟩ := ofForm_of_codes hfields h
  rw [hpayload, Option.map_some, hcommand]

namespace Sample

def askingText : SlackCommandPayload := { channelId := "C1", userId := "U1", text := "note=\"a & b\"" }

def askingFields : List (String × String) :=
  [("text", "note=\"a & b\""), ("user_id", "U1"), ("enterprise", ""), ("enterprise", "E1"),
    ("channel_id", "C1")]

theorem carries_asking : CarriesCommand askingText askingFields := by
  unfold CarriesCommand
  decide

/-- `text=note%3D%22a+%26+b%22&user_id=U1&enterprise=&enterprise=E1&channel_id=C1` -/
def askingBody : ByteArray :=
  (String.ofList (FormData.urlencode (askingFields.map fun f => (f.1.toList, f.2.toList)))).toUTF8

theorem codes_asking : CodesForm askingFields askingBody := ⟨_, FormData.urlencode_codes _, rfl⟩

end Sample

open Sample in
theorem form_read_back_asking : (parseFormPayload askingBody).map .ofForm = some askingText :=
  form_read_back askingText askingFields askingBody carries_asking codes_asking

/-! ### Requests -/

section Requests
variable (lib : StandardLibrary) (settings : Config.Settings)

/-- The request is signed over its own body, and its timestamp is near the clock. -/
def Genuine (r : SlackRequest) (d : RequestDraws) : Prop :=
  Authentic settings.verifier lib.hmac d.time r.timestamp r.signature r.body

/-- What a client with the secret sends at the timestamp `t`. -/
def SignedAt (t : String) (r : SlackRequest) : Prop :=
  ∃ message, baseString t r.body = some message ∧ r.timestamp = some t ∧
    r.signature = some ("v0=" ++ hexdigest (lib.hmac settings.verifier.secret message))

/-- The event names the channel and the user of the form of a genuine request. -/
structure AsksFor (l : SlackRequest × RequestDraws) (event : RunCreatedEvent) : Prop where
  genuine : Genuine lib settings l.1 l.2
  form : ∃ payload, parseFormPayload l.1.body = some payload ∧
    event.channelId = formValue payload "channel_id" ∧
    event.initiatorUserId = formValue payload "user_id"
  runId : event.runId = l.2.runId.str
  correlationId : event.correlationId = l.2.correlationId.str

def requestStep (p : RunPlatform) (l : SlackRequest × RequestDraws) (q : RunPlatform) : Prop :=
  q = (respond lib settings storeRow l.1 l.2 p).2

end Requests

section Served
variable {lib : StandardLibrary} {settings : Config.Settings} {r : SlackRequest} {d : RequestDraws}
  {c : SlashCommand}

theorem authentic_of_verify {v : SlackSignatureVerifier} {hmac : ByteArray → ByteArray → List UInt8}
    {now : ℚ} {timestamp signature : Option String} {body : ByteArray}
    (h : v.verify hmac now timestamp signature body = .ok ()) :
    Authentic v hmac now timestamp signature body := by
  by_cases hmissing : timestamp.getD "" = "" ∨ signature.getD "" = ""
  · rw [SlackSignatureVerifier.verify_missing hmissing] at h
    exact nomatch h
  obtain ⟨ht, hs⟩ := not_or.mp hmissing
  cases timestamp with
  | none => exact absurd rfl ht
  | some t =>
    cases signature with
    | none => exact absurd rfl hs
    | some s =>
      have hoc : SlackSignatureVerifier.Outcome v hmac now t s body _ :=
        SlackSignatureVerifier.outcome_verify ht hs
      rw [h] at hoc
      generalize hok : (Except.ok () : Except VerifyError Unit) = outcome at hoc
      cases hoc with
      | compared n text hn hsmall hfresh hbody hascii =>
        split_ifs at hok with hsame
        · exact ⟨t, s, n, text, rfl, rfl, ht, hs, hn, hfresh, hbody, hsame.symm⟩
      | notInteger | tooLarge | stale | notUtf8 | notAscii => exact nomatch hok

theorem parseInt_empty : parseInt "" = none := by decide +kernel

/-- A signature the client has computed passes. -/
theorem verify_signed {t : String} {n : ℤ} (h : SignedAt lib settings t r)
    (hn : parseInt t = some n) (hsmall : n.natAbs < floatOverflow)
    (hfresh : |d.time - n| ≤ settings.slackTimestampToleranceSeconds) :
    checkSignature lib settings r d = .ok () := by
  obtain ⟨message, hmessage, htimestamp, hsignature⟩ := h
  have ht : t ≠ "" := by
    rintro rfl
    exact nomatch hn.symm.trans parseInt_empty
  have hs : "v0=" ++ hexdigest (lib.hmac settings.verifier.secret message) ≠ "" := by
    intro hempty
    have hlength := congrArg String.length hempty
    rw [String.length_append, String.length_empty] at hlength
    exact absurd hlength (Nat.ne_of_gt (Nat.add_pos_left (by decide) _))
  have hcompute : settings.verifier.computeSignature lib.hmac t r.body =
      .ok ("v0=" ++ hexdigest (lib.hmac settings.verifier.secret message)) := by
    simp only [SlackSignatureVerifier.computeSignature, hmessage]
  have hascii : isAscii ("v0=" ++ hexdigest (lib.hmac settings.verifier.secret message)) = true := by
    rw [isAscii_append, isAscii_hexdigest, Bool.and_true]
    decide
  have hcompare : compareDigest ("v0=" ++ hexdigest (lib.hmac settings.verifier.secret message))
      ("v0=" ++ hexdigest (lib.hmac settings.verifier.secret message)) = .ok true := by
    rw [compareDigest_expected, if_pos hascii, decide_eq_true rfl]
  have hfresh : |d.time - n| ≤ settings.verifier.tolerance := hfresh
  unfold checkSignature
  rw [htimestamp, hsignature, SlackSignatureVerifier.verify_present ht hs,
    SlackSignatureVerifier.elapsed_of_small hn hsmall]
  show (if _ then _ else _) = _
  rw [if_neg (not_lt.mpr hfresh), hcompute]
  show (compareDigest _ _).bind _ = _
  rw [hcompare]
  rfl

section Route
variable {σ : Type} {insert : Models.Run → σ → Option σ} {p : Platform σ}

theorem respond_of_refused {e : VerifyError} (h : checkSignature lib settings r d = .error e) :
    (respond lib settings insert r d p).2 = p := by
  unfold respond
  rw [h]
  cases e <;> rfl

theorem respond_of_unread {e : RouteError} (hcheck : checkSignature lib settings r d = .ok ())
    (hread : readCommand lib r d = .error e) :
    respond lib settings insert r d p = (.error e, p) := by
  unfold respond
  rw [hcheck, hread]
  rfl

theorem respond_of_read (hcheck : checkSignature lib settings r d = .ok ())
    (hread : readCommand lib r d = .ok c) : respond lib settings insert r d p =
      ((serve insert c p).1.mapError .request, (serve insert c p).2) := by
  unfold respond
  rw [hcheck, hread]
  rfl

end Route

theorem asksFor_of_read (hcheck : checkSignature lib settings r d = .ok ())
    (hread : readCommand lib r d = .ok c) : AsksFor lib settings (r, d) c.run.created := by
  unfold readCommand at hread
  cases hform : parseFormPayload r.body with
  | none =>
    rw [hform] at hread
    exact nomatch hread
  | some payload =>
    rw [hform] at hread
    dsimp only at hread
    cases hoptions : parseCommandText lib.lower lib.fromisoformat d.clock
        (SlackCommandPayload.ofForm payload).text with
    | error failure =>
      rw [hoptions] at hread
      exact nomatch hread
    | ok options =>
      rw [hoptions] at hread
      obtain rfl := Except.ok.inj hread
      exact ⟨authentic_of_verify hcheck, ⟨payload, hform, rfl, rfl⟩, rfl, rfl⟩

/-- A request leaves everything as it is, or publishes its event; a row it adds is the one of
that event, and none is lost. -/
theorem request_adds {p q : RunPlatform} {l : SlackRequest × RequestDraws}
    (h : requestStep lib settings p l q) :
    q = p ∨ ∃ event, AsksFor lib settings l event ∧ q.topic = p.topic ++ [event] ∧
      (∀ run ∈ p.db, run ∈ q.db) ∧ ∀ run ∈ q.db, run ∈ p.db ∨ run.created = event := by
  obtain ⟨r, d⟩ := l
  rw [requestStep] at h
  cases hcheck : checkSignature lib settings r d with
  | error e => exact Or.inl (h.trans (respond_of_refused hcheck))
  | ok u =>
    cases hread : readCommand lib r d with
    | error e => exact Or.inl (h.trans (congrArg Prod.snd (respond_of_unread hcheck hread)))
    | ok c =>
      have hq : q = (serve storeRow c p).2 :=
        h.trans (congrArg Prod.snd (respond_of_read hcheck hread))
      by_cases hpublishes : c.Publishes storeRow p
      · refine Or.inr ⟨c.run.created, asksFor_of_read hcheck hread, ?_⟩
        obtain ⟨runs, hruns⟩ := Option.isSome_iff_exists.mp hpublishes.2.2.1
        obtain ⟨hfinishes, hfails⟩ := serve_of_publishes hpublishes hruns
        by_cases hfinish : c.Finishes
        · rw [hq, hfinishes hfinish]
          refine ⟨rfl, fun run hrun => (Table.mem_insert hruns).mpr (Or.inl hrun), ?_⟩
          intro run hrun
          exact ((Table.mem_insert hruns).mp hrun).imp_right fun hnew => congrArg _ hnew
        · rw [hq, hfails hfinish]
          exact ⟨rfl, fun _ hrun => hrun, fun _ hrun => Or.inl hrun⟩
      · exact Or.inl (hq.trans (serve_of_not_publishes hpublishes))

theorem readCommand_of_form {command : SlackCommandPayload} {fields : List (String × String)}
    {options : RunCommandOptions} (hfields : CarriesCommand command fields)
    (hform : CodesForm fields r.body)
    (hoptions : parseCommandText lib.lower lib.fromisoformat d.clock command.text = .ok options) :
    readCommand lib r d = .ok (d.slashCommand command options) := by
  obtain ⟨payload, hpayload, rfl⟩ := ofForm_of_codes hfields hform
  unfold readCommand
  rw [hpayload]
  dsimp only
  rw [hoptions]

end Served

/-! ### A signed request -/

namespace Sample

def standardLibrary : StandardLibrary := ⟨digestOf, id, fun _ => none⟩

def settings : Config.Settings :=
  { slackSigningSecret := "test-signing-secret", minLength := by decide }

def askingRequest : SlackRequest := ⟨some fresh, some "v0=76", askingBody⟩

def askingDraws : RequestDraws :=
  { time := clock, clock := fun _ => morning, now := morning, runId := .ofNat 1
    correlationId := .ofNat 2 }

def askingOptions : RunCommandOptions := { pickupNote := some "a & b" }

def requested (p : RunPlatform) (r : SlackRequest) (d : RequestDraws) :
    Transition.Event RunPlatform (SlackRequest × RequestDraws) :=
  ⟨p, (r, d), (respond standardLibrary settings storeRow r d p).2⟩

def forgedRequest : SlackRequest := { askingRequest with signature := some "v0=00" }

def lateDraws : RequestDraws := { askingDraws with time := clock + 301 }

/-- A request with a wrong signature, the same request signed, and that one sent again when its
timestamp is no longer fresh. -/
def forgedEvent : Transition.Event RunPlatform (SlackRequest × RequestDraws) :=
  requested idlePlatform forgedRequest askingDraws

def genuineEvent : Transition.Event RunPlatform (SlackRequest × RequestDraws) :=
  requested forgedEvent.after askingRequest askingDraws

def staleEvent : Transition.Event RunPlatform (SlackRequest × RequestDraws) :=
  requested genuineEvent.after askingRequest lateDraws

section Requested
variable {p p₀ : RunPlatform}
  {es : List (Transition.Event RunPlatform (SlackRequest × RequestDraws))}

theorem path_append (path : Transition.Path (requestStep standardLibrary settings) p₀ es p)
    (r : SlackRequest) (d : RequestDraws) :
    Transition.Path (requestStep standardLibrary settings) p₀ (es ++ [requested p r d])
      (requested p r d).after := .snoc path rfl

end Requested

theorem path_requested : Transition.Path (requestStep standardLibrary settings) idlePlatform
    [forgedEvent, genuineEvent, staleEvent] staleEvent.after := by
  have hforged := path_append (p := idlePlatform) .nil forgedRequest askingDraws
  have hgenuine := path_append hforged askingRequest askingDraws
  exact path_append hgenuine askingRequest lateDraws

theorem signed_asking : SignedAt standardLibrary settings fresh askingRequest := by
  have hmessage : baseString fresh askingBody = some _ := baseString_eq_some.mpr ⟨_, rfl, rfl⟩
  refine ⟨_, hmessage, rfl, ?_⟩
  decide +kernel

theorem forged_notGenuine : ¬Genuine standardLibrary settings forgedRequest askingDraws := by
  rintro ⟨t, s, n, text, ht, hs, -, -, -, -, htext, hsame⟩
  obtain rfl := Option.some.inj ht
  obtain rfl := Option.some.inj hs
  have hasked : String.fromUTF8? askingBody = some _ := fromUTF8?_eq_some.mpr rfl
  obtain rfl := Option.some.inj (hasked.symm.trans htext)
  revert hsame
  decide +kernel

def freshSecond : ℤ := 1700000000

theorem parse_fresh : parseInt fresh = some freshSecond := by decide +kernel

theorem small_freshSecond : freshSecond.natAbs < floatOverflow := by
  have hpow : (2 : ℕ) ^ 32 ≤ 2 ^ 1024 - 2 ^ 970 := by decide +kernel
  exact Nat.lt_of_lt_of_le (by decide +kernel) hpow

theorem near_freshSecond : |askingDraws.time - freshSecond| ≤ settings.slackTimestampToleranceSeconds := by
  decide +kernel

theorem stale_notGenuine : ¬Genuine standardLibrary settings askingRequest lateDraws := by
  rintro ⟨t, s, n, text, ht, -, -, -, hn, hnear, -, -⟩
  obtain rfl := Option.some.inj ht
  obtain rfl := Option.some.inj (parse_fresh.symm.trans hn)
  revert hnear
  decide +kernel

theorem options_asking : parseCommandText id (fun _ => none) (fun _ => morning) askingText.text =
    .ok askingOptions := by
  rfl

end Sample

/-- A command that is signed while its timestamp is fresh is handed to the service as it was
written, whatever the coding and the order of its fields. -/
theorem signed_command_served (lib : StandardLibrary) (settings : Config.Settings) {σ : Type}
    (insert : Models.Run → σ → Option σ) (p : Platform σ) (r : SlackRequest) (d : RequestDraws)
    (t : String) (n : ℤ) (command : SlackCommandPayload) (fields : List (String × String))
    (options : RunCommandOptions) (hsigned : SignedAt lib settings t r) (ht : parseInt t = some n)
    (hsmall : n.natAbs < floatOverflow)
    (hfresh : |d.time - n| ≤ settings.slackTimestampToleranceSeconds)
    (hfields : CarriesCommand command fields) (hform : CodesForm fields r.body)
    (hoptions : parseCommandText lib.lower lib.fromisoformat d.clock command.text = .ok options) :
    respond lib settings insert r d p =
        ((serve insert (d.slashCommand command options) p).1.mapError .request,
          (serve insert (d.slashCommand command options) p).2) ∧
      ∀ db, (d.slashCommand command options).Publishes insert p →
        insert (d.slashCommand command options).run p.db = some db →
        (d.slashCommand command options).Finishes →
        (respond lib settings insert r d p).2 =
          { db, topic := p.topic ++ [(d.slashCommand command options).run.created] } := by
  have hserved : respond lib settings insert r d p =
      ((serve insert (d.slashCommand command options) p).1.mapError .request,
        (serve insert (d.slashCommand command options) p).2) :=
    respond_of_read (verify_signed hsigned ht hsmall hfresh)
      (readCommand_of_form hfields hform hoptions)
  refine ⟨hserved, fun db hpublishes hdb hfinishes => ?_⟩
  rw [hserved]
  exact (serve_of_publishes hpublishes hdb).1 hfinishes

open Sample in
theorem signed_command_served_asking :
    respond standardLibrary settings storeRow askingRequest askingDraws idlePlatform =
        ((serve storeRow (askingDraws.slashCommand askingText askingOptions) idlePlatform).1.mapError
          .request,
          (serve storeRow (askingDraws.slashCommand askingText askingOptions) idlePlatform).2) ∧
      ∀ db, (askingDraws.slashCommand askingText askingOptions).Publishes storeRow idlePlatform →
        storeRow (askingDraws.slashCommand askingText askingOptions).run idlePlatform.db = some db →
        (askingDraws.slashCommand askingText askingOptions).Finishes →
        (respond standardLibrary settings storeRow askingRequest askingDraws idlePlatform).2 =
          { db, topic := idlePlatform.topic ++
                  [(askingDraws.slashCommand askingText askingOptions).run.created] } :=
  signed_command_served standardLibrary settings storeRow idlePlatform askingRequest askingDraws
    fresh freshSecond askingText askingFields askingOptions signed_asking parse_fresh
    small_freshSecond near_freshSecond carries_asking codes_asking options_asking

/-- Whatever is sent, and in whatever order, what is new on the topic are the events of a
sublist of the requests, each signed and asking for it, and what is new in the table are rows
of these events. -/
theorem runs_from_genuine_requests (lib : StandardLibrary) (settings : Config.Settings)
    (p₀ p : RunPlatform) (es : List (Transition.Event RunPlatform (SlackRequest × RequestDraws)))
    (h : Transition.Path (requestStep lib settings) p₀ es p) :
    ∃ served events, served.Sublist es ∧
      List.Forall₂ (fun e event => AsksFor lib settings e.label event) served events ∧
      p.topic = p₀.topic ++ events ∧ (∀ run ∈ p₀.db, run ∈ p.db) ∧
      ∀ run ∈ p.db, run ∈ p₀.db ∨ run.created ∈ events := by
  induction h with
  | nil => exact ⟨[], [], List.Sublist.refl [], .nil, (List.append_nil _).symm, fun _ h => h,
      fun _ h => Or.inl h⟩
  | @snoc es q u l path last ih =>
    obtain ⟨served, events, hserved, hasks, htopic, hold, hnew⟩ := ih
    rcases request_adds last with rfl | ⟨event, hevent, htopic', hold', hnew'⟩
    · exact ⟨served, events, hserved.trans (List.sublist_append_left _ _), hasks, htopic, hold,
        hnew⟩
    · refine ⟨served ++ [⟨q, l, u⟩], events ++ [event], hserved.append (List.Sublist.refl _),
        List.rel_append hasks (.cons hevent .nil), ?_, fun run hrun => hold' run (hold run hrun),
        ?_⟩
      · rw [htopic', htopic, List.append_assoc]
      · intro run hrun
        rcases hnew' run hrun with hrun | hrun
        · exact (hnew run hrun).imp_right (List.mem_append_left _)
        · exact Or.inr (hrun ▸ List.mem_append_right _ List.mem_cons_self)

open Sample in
theorem runs_from_genuine_requests_asked :
    (¬Genuine standardLibrary settings forgedRequest askingDraws ∧
      ¬Genuine standardLibrary settings askingRequest lateDraws) ∧
    ∃ served events, served.Sublist [forgedEvent, genuineEvent, staleEvent] ∧
      List.Forall₂ (fun e event => AsksFor standardLibrary settings e.label event) served events ∧
      staleEvent.after.topic = idlePlatform.topic ++ events ∧
      (∀ run ∈ idlePlatform.db, run ∈ staleEvent.after.db) ∧
      ∀ run ∈ staleEvent.after.db, run ∈ idlePlatform.db ∨ run.created ∈ events :=
  ⟨⟨forged_notGenuine, stale_notGenuine⟩,
    runs_from_genuine_requests standardLibrary settings idlePlatform _ _ path_requested⟩

end CoffeeBuddy
