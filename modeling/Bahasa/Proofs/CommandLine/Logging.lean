import Bahasa.Proofs.CommandLine.Operands
import Bahasa.Proofs.Eval.Records
import Bahasa.Proofs.Session.Joined

namespace Bahasa

/-- The same is printed, with records in front on standard error. -/
def Printed.Logged (stamp? : Option String) (p q : Printed) : Prop :=
  ∃ log, q = ⟨p.out, logLines stamp? log ++ p.err⟩

namespace Printed.Logged

variable {stamp? : Option String} {p q : Printed}

theorem refl (p : Printed) : p.Logged stamp? p := by
  refine ⟨[], ?_⟩
  cases stamp? with
  | none => simp [logLines]
  | some stamp => simp [logLines]

theorem append (h : p.Logged stamp? q) (r : Printed) : (p ++ r).Logged stamp? (q ++ r) := by
  obtain ⟨log, rfl⟩ := h
  refine ⟨log, ?_⟩
  change Printed.mk (p.out ++ r.out) (_ ++ p.err ++ r.err) =
    Printed.mk (p.out ++ r.out) (_ ++ (p.err ++ r.err))
  rw [String.append_assoc]

end Printed.Logged

variable (stamp? level? : Option String)

theorem Report.printed_logged (report : Report) :
    (report.printed none).Logged stamp? (report.printed stamp?) :=
  ⟨report.log, by simp [Report.printed, logLines]⟩

namespace Session

end Session

def Console.withLevel (c : Console) (level? : Option String) : Console :=
  { c with settings := { c.settings with logLevel? := level? } }

inductive Turn.Logged : Turn → Turn → Prop
  | stay {p q : Printed} (next : Console) (h : p.Logged stamp? q) :
    Logged (.stay p next) (.stay q (next.withLevel level?))
  | leave : Logged .leave .leave
  | breakOff {p q : Printed} (next : Console) (h : p.Logged stamp? q) :
    Logged (.breakOff p next) (.breakOff q (next.withLevel level?))

namespace Console

structure Step.Logged (a b : Step) : Prop where
  printed : a.printed.Logged stamp? b.printed
  console : b.console = a.console.withLevel level?

structure Sitting.Logged (a b : Sitting) : Prop where
  steps : List.Forall₂ (Step.Logged stamp? level?) a.steps b.steps
  brokeOff : b.brokeOff = a.brokeOff

variable {stamp? level?} in
theorem Sitting.Logged.after {first first' : Step} {rest rest' : Sitting}
    (h : Step.Logged stamp? level? first first') (hr : Sitting.Logged stamp? level? rest rest') :
    Sitting.Logged stamp? level? (.after first rest) (.after first' rest') :=
  ⟨.cons h hr.steps, hr.brokeOff⟩

variable (i : Interpreter) (screen : Screen) (c : Console)

theorem setTrace_logged (arg : String) :
    (c.setTrace arg).Logged stamp? level? ((c.withLevel level?).setTrace arg) := by
  have hpresent : (c.withLevel level?).settings.traceEnabled = c.settings.traceEnabled := rfl
  unfold setTrace
  rw [hpresent]
  split
  · exact .stay { c with settings := c.settings.setTrace _ } (.refl _)
  · exact .stay c (.refl _)

theorem list_logged (bindings : List Binding) :
    (c.list screen bindings).Logged stamp? level? ((c.withLevel level?).list screen bindings) := by
  unfold list
  dsimp only
  split
  · exact .stay c (.refl _)
  · exact .breakOff c (.refl _)

theorem listVariables_logged (name : String) :
    (c.listVariables screen name).Logged stamp? level?
      ((c.withLevel level?).listVariables screen name) := by
  have hlisted : listed? (c.withLevel level?).session name = listed? c.session name := rfl
  unfold listVariables
  rw [hlisted]
  split
  · exact c.list_logged stamp? level? screen _
  · exact .stay c (.refl _)

theorem obey_logged (arg : String) (command : Command) :
    (c.obey screen arg command).Logged stamp? level?
      ((c.withLevel level?).obey screen arg command) := by
  cases command with
  | exit => exact .leave
  | reset => exact .stay { c with session := .startAt c.session.ticks } (.refl _)
  | clear => exact .stay c (.refl _)
  | vars => exact c.listVariables_logged stamp? level? screen arg
  | traceback => exact c.setTrace_logged stamp? level? arg

theorem evaluate_logged (source : String) :
    (c.evaluate ⟨i, none, screen⟩ source).Logged stamp? level?
      ((c.withLevel level?).evaluate ⟨i, stamp?, screen⟩ source) := by
  have hprinted := (c.session.run i source).1.printed_logged stamp?
  let next : Console := { c with session := (c.session.run i source).2 }
  have hsession : (c.withLevel level?).session = c.session := rfl
  unfold evaluate
  rw [hsession]
  dsimp only
  split
  · exact .stay next hprinted
  · split
    · exact .stay next (hprinted.append _)
    · exact .breakOff next hprinted
  · exact .stay next (hprinted.append _)

theorem respondText_logged (text : String) :
    (c.respondText ⟨i, none, screen⟩ text).Logged stamp? level?
      ((c.withLevel level?).respondText ⟨i, stamp?, screen⟩ text) := by
  unfold respondText
  cases Request.ofText text with
  | blank | unknown name => exact .stay c (.refl _)
  | command command arg => exact c.obey_logged stamp? level? screen arg command
  | source text => exact c.evaluate_logged stamp? level? i screen text

theorem respond_logged (e : Entry) : (c.respond ⟨i, none, screen⟩ e).Logged stamp? level?
    ((c.withLevel level?).respond ⟨i, stamp?, screen⟩ e) := by
  cases e with
  | interrupt => exact .stay c (.refl _)
  | text s => exact c.respondText_logged stamp? level? i screen (Editing.normalize s)

theorem answers_logged (entries : List Entry) : Sitting.Logged stamp? level?
    (c.answers ⟨i, none, screen⟩ entries)
    ((c.withLevel level?).answers ⟨i, stamp?, screen⟩ entries) := by
  induction entries generalizing c with
  | nil => exact ⟨.cons ⟨.refl _, rfl⟩ .nil, rfl⟩
  | cons e rest ih =>
    have h := c.respond_logged stamp? level? i screen e
    unfold answers
    generalize c.respond ⟨i, none, screen⟩ e = quiet,
      (c.withLevel level?).respond ⟨i, stamp?, screen⟩ e = loud at h
    cases h with
    | stay next hp => exact .after ⟨hp, rfl⟩ (ih next)
    | leave => exact ⟨.cons ⟨.refl _, rfl⟩ .nil, rfl⟩
    | breakOff next hp => exact ⟨.cons ⟨hp, rfl⟩ .nil, rfl⟩

theorem run_logged (settings : Settings) (entries : List Entry) :
    Sitting.Logged stamp? level? (run ⟨i, none, screen⟩ settings entries)
      (run ⟨i, stamp?, screen⟩ { settings with logLevel? := level? } entries) :=
  .after ⟨.refl _, rfl⟩ ((new settings).answers_logged stamp? level? i screen entries)

variable {stamp? level?} in
theorem getLast?_logged {as bs : List Step} (h : List.Forall₂ (Step.Logged stamp? level?) as bs) :
    bs.getLast?.map (·.console) = (as.getLast?.map (·.console)).map (·.withLevel level?) := by
  have hmap : bs.map (·.console) = (as.map (·.console)).map (·.withLevel level?) := by
    induction h with
    | nil => rfl
    | cons hab _ ih => rw [List.map_cons, List.map_cons, List.map_cons, hab.console, ih]
  rw [← List.getLast?_map, hmap, List.getLast?_map, List.getLast?_map]

end Console

namespace Surroundings

def withLevel (s : Surroundings) (level? : Option String) : Surroundings :=
  { s with settings := { s.settings with logLevel? := level? } }

theorem load_withLevel (s : Surroundings) (arg : String) : (s.withLevel level?).load arg =
    ((s.load arg).1, (s.load arg).2.withLevel level?) := by
  unfold load
  split
  · rfl
  · rfl

end Surroundings

structure Outcome.Logged (o o' : Outcome) : Prop where
  code? : o'.code? = o.code?
  printed : o.printed.Logged stamp? o'.printed
  sitting? : Option.Rel (Console.Sitting.Logged stamp? level?) o.sitting? o'.sitting?
  after : o'.after = o.after.withLevel level?

namespace CommandLine

open Invocation (operands)

variable (i : Interpreter) (s : Surroundings)

theorem sit_logged : (sit ⟨i, none, s.screen⟩ s).Logged stamp? level?
    (sit ⟨i, stamp?, s.screen⟩ (s.withLevel level?)) := by
  have hsitting : Console.Sitting.Logged stamp? level?
      (Console.run ⟨i, none, s.screen⟩ s.settings s.entries)
      (Console.run ⟨i, stamp?, s.screen⟩ (s.withLevel level?).settings
        (s.withLevel level?).entries) :=
    Console.run_logged stamp? level? i s.screen s.settings s.entries
  have hlast := Console.getLast?_logged hsitting.steps
  refine ⟨?_, .refl _, .some hsitting, ?_⟩
  · unfold sit
    dsimp only
    rw [hsitting.brokeOff]
  unfold sit
  dsimp only
  generalize (Console.run ⟨i, none, s.screen⟩ s.settings s.entries).steps.getLast? = last?,
    (Console.run ⟨i, stamp?, s.screen⟩ _ _).steps.getLast? = last'? at hlast
  cases last? with
  | none =>
    rw [Option.map_eq_none_iff.mp hlast]
    rfl
  | some last =>
    obtain ⟨last', rfl, hc⟩ := Option.map_eq_some_iff.mp hlast
    simp only [Option.map_some, Option.getD_some, hc]
    rfl

theorem execute_logged (screen : Screen) (source : String) :
    (execute ⟨i, none, screen⟩ s source).Logged stamp? level?
      (execute ⟨i, stamp?, screen⟩ (s.withLevel level?) source) := by
  unfold execute
  dsimp only
  have hprinted := (Session.new.run i source).1.printed_logged stamp?
  cases (Session.new.run i source).1.result with
  | ok v => exact ⟨rfl, hprinted, .none, rfl⟩
  | error e => exact ⟨rfl, hprinted.append _, .none, rfl⟩

theorem perform_logged (operands : List String) :
    (perform ⟨i, none, s.screen⟩ s operands).Logged stamp? level?
      (perform ⟨i, stamp?, s.screen⟩ (s.withLevel level?) operands) := by
  match operands with
  | [] => exact sit_logged stamp? level? i s
  | [arg] =>
    simp only [perform, s.load_withLevel]
    exact execute_logged stamp? level? i _ _ _
  | _ :: arg :: _ => exact ⟨rfl, .refl _, .none, rfl⟩

theorem run_quiet (stamp : String) (args : List String) :
    run i stamp (s.withLevel none) (operands args) =
      perform ⟨i, none, s.screen⟩ (s.withLevel none) (operands args) := by
  have hlevel : LogLevel.ofName? (Settings.upper (Text.trim "WARNING")) = some .warning := by decide
  have hstamp : shownStamp? stamp (s.withLevel none) (operands args) = none := by
    unfold shownStamp? showsLog Settings.logLevel
    rw [Invocation.operands_any]
    change (if decide ((LogLevel.ofName? (Settings.upper (Text.trim "WARNING"))).getD .warning =
      .debug) = true then some stamp else none) = none
    rw [hlevel]
    rfl
  rw [run_eq, hstamp, Invocation.operands_operands]
  rfl

theorem run_logged (stamp : String) (args : List String) :
    (run i stamp (s.withLevel none) (operands args)).Logged (shownStamp? stamp s args)
      s.settings.logLevel? (run i stamp s args) := by
  rw [run_quiet, run_eq i stamp s args]
  exact perform_logged _ _ i (s.withLevel none) (operands args)

end CommandLine

end Bahasa
