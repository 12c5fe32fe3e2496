import DeskCalc.CommandLine
import DeskCalc.Proofs.HandledEvents

/-!
# The command line and the sessions of the library

The options of a command line stand in place of what the configuration file says, and only
what both give together has to pass the check. The run is then a session whose events are
written as they arise, and what it writes and how it ends can be told from the same session
with its events recorded.
-/

namespace DeskCalc.CommandLine

variable {read : String → Except String String} {words : List String} {o : Options}

/-- The configuration that a run starts from: that of the file, or without one the standard
one. -/
inductive Loads (read : String → Except String String) : Option String → Config → Prop
  | standard : Loads read none .standard
  | file {path text : String} {c : Config} (hread : read path = .ok text)
      (hparse : Config.parse? text = some c) : Loads read (some path) c

/-- A configuration with each option that is given, and the other values of another one. -/
structure Overrides (o : Options) (base c : Config) : Prop where
  backend : c.backend = o.backend.getD base.backend
  precision : c.precision = o.precision.getD base.precision
  maxPrecision : c.maxPrecision = o.maxPrecision.getD base.maxPrecision
  policy : c.policy = if o.discardOnError then .discard else base.policy

/-- The configuration that a file and options give together. -/
def Effective (read : String → Except String String) (o : Options) (c : Config) : Prop :=
  ∃ base, Loads read o.configPath base ∧ Overrides o base c

theorem overrides_iff {base c : Config} : Overrides o base c ↔ o.apply base = c := by
  constructor
  · rintro ⟨hbackend, hprecision, hmax, hpolicy⟩
    obtain ⟨backend, precision, maxPrecision, policy⟩ := c
    simp only [Options.apply, ← hbackend, ← hprecision, ← hmax, ← hpolicy]
  · rintro rfl
    exact ⟨rfl, rfl, rfl, rfl⟩

theorem Loads.eq {path : Option String} {a b : Config} (ha : Loads read path a)
    (hb : Loads read path b) : a = b := by
  cases ha with
  | standard =>
      cases hb
      rfl
  | file hread hparse =>
      cases hb with
      | file hread' hparse' =>
          cases Except.ok.inj (hread.symm.trans hread')
          exact Option.some.inj (hparse.symm.trans hparse')

theorem Effective.eq {a b : Config} (ha : Effective read o a) (hb : Effective read o b) :
    a = b := by
  obtain ⟨base, hload, hover⟩ := ha
  obtain ⟨base', hload', hover'⟩ := hb
  rw [← overrides_iff.mp hover, ← overrides_iff.mp hover', hload.eq hload']

/-- A file is loaded, or there is a reason for ending without success. -/
theorem baseConfig_cases (read : String → Except String String) (o : Options) :
    (∃ base, Loads read o.configPath base ∧ baseConfig .full read o = .ok base) ∨
      (∀ base, ¬ Loads read o.configPath base) ∧
        ∃ f : Failure, f.exitCode = 1 ∧ baseConfig .full read o = .error f := by
  unfold baseConfig
  cases o.configPath with
  | none => exact Or.inl ⟨_, .standard, rfl⟩
  | some path =>
      cases hread : read path with
      | error reason =>
          refine Or.inr ⟨?_, .fileUnreadable path reason, rfl, by simp only [hread]⟩
          rintro base (_ | ⟨hok, -⟩)
          exact nomatch hread.symm.trans hok
      | ok text =>
          cases hparse : Config.parse? text with
          | none =>
              refine Or.inr ⟨?_, .fileMalformed, rfl, by simp only [hread, hparse]⟩
              rintro base (_ | ⟨hok, hsome⟩)
              cases Except.ok.inj (hread.symm.trans hok)
              exact nomatch hparse.symm.trans hsome
          | some c => exact Or.inl ⟨c, .file hread hparse, by simp only [hread, hparse]⟩

/-- A run starts with the configuration that file and options give together, if there is one
and it passes the check, and else does not start. -/
theorem configure_cases (h : Options.parse? words = some o)
    (read : String → Except String String) :
    (∃ c, Effective read o c ∧ c.check .full = .ok () ∧ configure .full read words = .ok c) ∨
      (∀ c, Effective read o c → c.check .full ≠ .ok ()) ∧
        ∃ f : Failure, f.exitCode = 1 ∧ configure .full read words = .error f := by
  unfold configure
  rcases baseConfig_cases read o with ⟨base, hload, hbase⟩ | ⟨hload, f, hcode, hbase⟩
  · have heffective : Effective read o (o.apply base) := ⟨base, hload, overrides_iff.mpr rfl⟩
    cases hcheck : (o.apply base).check .full with
    | ok _ => exact Or.inl ⟨_, heffective, hcheck, by simp only [h, hbase, hcheck]⟩
    | error cause =>
        refine Or.inr ⟨fun c hc => ?_, .config cause, rfl, by simp only [h, hbase, hcheck]⟩
        rw [hc.eq heffective, hcheck]
        nofun
  · refine Or.inr ⟨?_, f, hcode, by simp only [h, hbase]⟩
    rintro c ⟨base, hbase', -⟩
    exact absurd hbase' (hload base)

/-- What a run owes to the session that records its events: the lines of the events, each with
its newline, and an exit code for each way to end. -/
structure Renders {α : Type} (r : Session.Handled α (List Event)) (outcome : Outcome) :
    Prop where
  output : outcome.output = (Event.lines r.state).flatMap Sink.lineBytes
  success : outcome.exitCode = 0 ↔ ∃ s, r.ending = .done s
  unreadable : outcome.exitCode = 1 ↔ ∃ cause, r.ending = .unreadable cause
  crash : outcome.exitCode = 101 ↔ ∃ cause, r.ending = .crashed cause

open Session in
/-- Events may be written as they arise instead of being recorded. -/
theorem renders_session (c : Config) (input : List UInt8) :
    Renders (runWith Handler.recording [] c.machine input) (session c input) := by
  have hstart : ({} : Sink) = { written := Sink.bytesOf [] } := rfl
  have hsession : runWith Handler.writing {} c.machine input =
      (runWith Handler.recording [] c.machine input).map fun given =>
        { written := Sink.bytesOf given } := by
    rw [hstart]
    exact runLinesWith_of_follows (Handler.writing_follows none) [] c.machine 0 (Line.split input)
  unfold session
  rw [hsession]
  -- The exit code is decided by the ending, which both sessions have in common.
  obtain ⟨machine, events, ending⟩ := runWith Handler.recording [] c.machine input
  cases ending with
  | done s => refine ⟨rfl, ?_, ?_, ?_⟩ <;> simp [Handled.map, Outcome.exitCode]
  | unreadable cause =>
      refine ⟨rfl, ?_, ⟨fun _ => ⟨cause, rfl⟩, fun _ => rfl⟩, ?_⟩ <;>
        simp [Handled.map, Outcome.exitCode, Failure.exitCode]
  | crashed cause =>
      refine ⟨rfl, ?_, ?_, ⟨fun _ => ⟨cause, rfl⟩, fun _ => rfl⟩⟩ <;>
        simp [Handled.map, Outcome.exitCode, Failure.exitCode]

/-- What a session has recorded at its end: the events of its lines, and then the one that tells
of dropped operands. -/
def sessionEvents {α : Type} [Operand α] (m : Machine α) (lines : List (List UInt8)) :
    List Event :=
  let (last, events) := m.evaluateAll (Line.texts lines)
  events ++ last.close.2

/-- A run that ends in front of a line: the lines before it are carried out, their events have
been recorded in a session on the same input, and their lines have been written. -/
structure EndsBefore {α : Type} [Operand α] (m : Machine α) (input : List UInt8)
    (before : List (List UInt8)) (bad : List UInt8) (outcome : Outcome) : Prop where
  split : ∃ after, Line.split input = before ++ bad :: after
  carriedOut : m.CarriesOut before
  recorded : (Session.runWith Handler.recording [] m input).state =
    (m.evaluateAll (Line.texts before)).2
  output : outcome.output =
    (Event.lines (m.evaluateAll (Line.texts before)).2).flatMap Sink.lineBytes

namespace Renders

variable {α : Type} [Operand α] {m : Machine α} {input : List UInt8} {outcome : Outcome}
  (hrun : Renders (Session.runWith .recording [] m input) outcome) (running : m.running = true)

include hrun running

/-- A run without failure has carried out all lines that count. -/
theorem of_exitCode_zero (hcode : outcome.exitCode = 0) :
    m.CarriesOut (Line.counted input) ∧
      (Session.runWith .recording [] m input).state = sessionEvents m (Line.counted input) := by
  have hlines :=
    (Session.runWith_eq_done_iff .recording [] running).mp (hrun.success.mp hcode)
  refine ⟨hlines, ?_⟩
  rw [Session.runWith_of_carriesOut .recording [] running hlines]
  exact Session.completed_recording m _

/-- A run that fails ends in front of the line that stops it. -/
theorem of_exitCode_ne_zero (hcode : outcome.exitCode ≠ 0) :
    ∃ before bad, EndsBefore m input before bad outcome ∧
      (m.evaluateAll (Line.texts before)).1.Stops bad
        (Session.runWith .recording [] m input).ending := by
  rcases Session.runWith_cases .recording [] running input with
    ⟨-, hdone⟩ | ⟨before, bad, after, ending, hlines, hbefore, hstops, hstopped⟩
  · refine absurd (hrun.success.mpr ?_) hcode
    rw [hdone]
    exact ⟨_, rfl⟩
  · obtain ⟨-, more, hsplit⟩ := Line.not_hasQuit_of_upToQuit hlines
    have hrecorded : (Session.runWith .recording [] m input).state =
        (m.evaluateAll (Line.texts before)).2 := by
      rw [hstopped]
      exact Session.handed_recording [] m _
    refine ⟨before, bad, ⟨⟨more, hsplit⟩, hbefore, hrecorded, ?_⟩, ?_⟩
    · rw [hrun.output, hrecorded]
    · rw [hstopped]
      exact hstops

end Renders

/-- What is due from the runs of a command line with given options on all inputs. -/
structure RunsSession (read : String → Except String String) (o : Options)
    (run : List UInt8 → Outcome) : Prop where
  /-- Without a configuration that is loaded and passes the check, nothing is written, and the
  input plays no part. -/
  refused : (∀ c, Effective read o c → ∀ m, c.start .full ≠ .ok m) →
    ∃ f : Failure, f.exitCode = 1 ∧ ∀ input, run input = { output := [], failure := some f }
  /-- Otherwise the lines are written that the same session has recorded. -/
  started : ∀ c (m : Machine c.backend.Value), Effective read o c → c.start .full = .ok m →
    ∀ input, Renders (Session.runWith Handler.recording [] m input) (run input)
  /-- A run without failure has carried out all lines up to the first one with a `q`, and these
  are their events. -/
  reported : ∀ c (m : Machine c.backend.Value), Effective read o c → c.start .full = .ok m →
    ∀ input, (run input).exitCode = 0 →
      m.CarriesOut (Line.counted input) ∧
        (Session.runWith Handler.recording [] m input).state =
          sessionEvents m (Line.counted input)
  /-- A run that fails behind its start with the exit code of a failure has ended before the first
  line that is not UTF-8. -/
  brokenOff : ∀ c (m : Machine c.backend.Value), Effective read o c → c.start .full = .ok m →
    ∀ input, (run input).exitCode = 1 →
      ∃ before bad, EndsBefore m input before bad (run input) ∧ Line.decode? bad = none
  /-- With any other exit code it has ended before the first line that breaks off. -/
  crashed : ∀ c (m : Machine c.backend.Value), Effective read o c → c.start .full = .ok m →
    ∀ input, (run input).exitCode ≠ 0 → (run input).exitCode ≠ 1 →
      (run input).exitCode = 101 ∧
        ∃ before bad text cause, EndsBefore m input before bad (run input) ∧
          Line.decode? bad = some text ∧
          (m.evaluateAll (Line.texts before)).1.crash? text = some cause

/-- Every command line whose options can be understood runs the session of the configuration
that the file and the options give together. -/
theorem runsSession_run (h : Options.parse? words = some o) :
    RunsSession read o (run .full read words) := by
  rcases configure_cases h read with ⟨c, hc, hcheck, hrun⟩ | ⟨hcheck, f, hcode, hrun⟩
  · have hstart : c.start .full = .ok c.machine := Config.start_eq_ok.mpr ⟨hcheck, rfl⟩
    -- No other configuration is effective, and no other calculator is started with it.
    have hrenders {d : Config} {m : Machine d.backend.Value} (hd : Effective read o d)
        (hm : d.start .full = .ok m) (input : List UInt8) :
        Renders (Session.runWith .recording [] m input) (run .full read words input) := by
      obtain rfl := hc.eq hd
      obtain rfl := (Config.start_eq_ok.mp hm).2
      simpa only [run, hrun] using renders_session c input
    refine ⟨fun hnone => absurd hstart (hnone c hc c.machine), fun d m => hrenders, ?_, ?_, ?_⟩
    · intro d m hd hm input hcode
      exact (hrenders hd hm input).of_exitCode_zero (Config.running_of_start hm) hcode
    · intro d m hd hm input hcode
      have hrun := hrenders hd hm input
      obtain ⟨cause, hending⟩ := hrun.unreadable.mp hcode
      obtain ⟨before, bad, hends, hstops⟩ :=
        hrun.of_exitCode_ne_zero (Config.running_of_start hm) (by omega)
      rw [hending] at hstops
      cases hstops with
      | unreadable hdecode => exact ⟨before, bad, hends, hdecode⟩
    · intro d m hd hm input hcode hcode'
      have hrun := hrenders hd hm input
      obtain ⟨before, bad, hends, hstops⟩ :=
        hrun.of_exitCode_ne_zero (Config.running_of_start hm) hcode
      cases hending : (Session.runWith .recording [] m input).ending with
      | done s => exact absurd (hrun.success.mpr ⟨s, hending⟩) hcode
      | unreadable cause => exact absurd (hrun.unreadable.mpr ⟨cause, hending⟩) hcode'
      | crashed cause =>
          rw [hending] at hstops
          cases hstops with
          | crashed hdecode hcrash =>
              exact ⟨hrun.crash.mpr ⟨cause, hending⟩, before, bad, _, cause, hends, hdecode, hcrash⟩
  · have hnone (d : Config) (hd : Effective read o d) (m : Machine d.backend.Value) :
        d.start .full ≠ .ok m := fun hm => hcheck d hd (Config.start_eq_ok.mp hm).1
    refine ⟨fun _ => ⟨f, hcode, fun input => ?_⟩, ?_, ?_, ?_, ?_⟩
    · simp only [run, hrun]
    · exact fun d m hd hm => absurd hm (hnone d hd m)
    · exact fun d m hd hm => absurd hm (hnone d hd m)
    · exact fun d m hd hm => absurd hm (hnone d hd m)
    · exact fun d m hd hm => absurd hm (hnone d hd m)

/-- A file whose configuration would be refused by itself, and an option that mends it. -/
theorem runsSession_run_mended :
    let read : String → Except String String := fun _ => .ok "[\"decimal\", 4, 3]"
    let words := ["--config", "cdc.json", "-p2", "--discard-on-error"]
    let o : Options :=
      { precision := some 2, discardOnError := true, configPath := some "cdc.json" }
    let c : Config := { backend := .decimal, precision := 2, maxPrecision := 3, policy := .discard }
    (Options.parse? words = some o ∧ Effective read o c ∧ c.start .full = .ok c.machine) ∧
      RunsSession read o (run .full read words) := by
  intro read words o c
  have hwords : Options.parse? words = some o := by decide +kernel
  have hfile : Config.parse? "[\"decimal\", 4, 3]" =
      some { backend := .decimal, precision := 4, maxPrecision := 3 } := by decide +kernel
  have heffective : Effective read o c := ⟨_, .file rfl hfile, ⟨rfl, rfl, rfl, rfl⟩⟩
  exact ⟨⟨hwords, heffective, rfl⟩, runsSession_run hwords⟩

end DeskCalc.CommandLine
