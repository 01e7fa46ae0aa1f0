import VectorLang.Json
import VectorLang.Machine.Eval

/-!
# Tracebacks

What is shown of a run that was stopped by a fault: for each frame, the outermost first,
the place of its last step, or the place where it was called if it made none; then the
fault itself.  A traceback is written as lines of text or as a JSON document.
-/

namespace VectorLang

/-- One frame of a traceback. -/
structure TracebackFrame where
  /-- The name of the function. -/
  name : String
  /-- The place that the frame stopped at. -/
  location : Option Location
  /-- The last step of the frame. -/
  step : Option Step
deriving DecidableEq, Inhabited

/-- A run that was stopped by a fault. -/
structure Traceback where
  /-- The frames, the outermost first. -/
  frames : List TracebackFrame
  /-- The fault. -/
  fault : Fault
  /-- The number of the last step of the run. -/
  lastStep : Option Nat
deriving DecidableEq, Inhabited

namespace Traceback

/-- What is shown of a frame of a run. -/
def frameOf (m : Machine) (f : Frame) : TracebackFrame :=
  let step := m.lastStepOf? f.id
  ⟨f.name, (step.map Step.location).or f.calledAt, step⟩

/-- The traceback of a run, if a fault ended it. -/
def ofOutcome? (o : Outcome) : Option Traceback :=
  o.fault?.map fun fault => ⟨o.frames.map (frameOf o.machine), fault, o.lastStep?⟩

/-- The name of the class of errors that faults belong to. -/
def errorType : String := "VeclRuntimeError"

/-! ## Text -/

/-- The line that tells where a frame stopped. -/
def locationLine (f : TracebackFrame) : String :=
  match f.location with
  | some loc => "  File \"" ++ loc.file ++ "\", line " ++ loc.line.repr ++ ", in " ++ f.name
  | none => "  <unknown location> in " ++ f.name

/-- The lines that tell what the last step of a frame was. -/
def stepLines (s : Step) : List String :=
  let heading := "    Step " ++ s.index.repr ++ " (" ++ s.action.rule ++ ")"
  match s.snapshot with
  | none => [heading]
  | some vars =>
    [heading, "    Env snapshot: " ++
      String.intercalate ", " (vars.map fun (name, v) => name ++ "=" ++ v)]

/-- The source line of the last step, unless it is empty. -/
def statementLines (s : Step) : List String :=
  let statement := s.location.statement
  if statement.isEmpty then [] else ["    " ++ statement]

/-- The lines of a frame. -/
def frameLines (f : TracebackFrame) : List String :=
  match f.step with
  | none => [locationLine f]
  | some s => locationLine f :: (statementLines s ++ stepLines s)

/-- The lines of a traceback. -/
def lines (t : Traceback) : List String :=
  "Traceback (most recent call last):" :: t.frames.flatMap frameLines ++
    [errorType ++ ": " ++ t.fault.cause.message ++ " (rule: " ++
      t.fault.cause.rule?.getD "runtime" ++ ")"]

/-- The text of a traceback. -/
def text (t : Traceback) : String :=
  String.intercalate "\n" t.lines

/-! ## JSON -/

/-- A location without its column. -/
def locationFields (loc : Location) : Json :=
  .obj [("file", .str loc.file), ("line", .num loc.line), ("statement", .str loc.statement)]

/-- What a step did. -/
def actionFields (a : Action) : Json :=
  match a with
  | .node label => .obj [("rule", .str label)]
  | .call function => .obj [("rule", .str a.rule), ("function", .str function)]

/-- The last step of a frame. -/
def stepFields (s : Step) : List (String × Json) :=
  let snapshot :=
    match s.snapshot with
    | none => []
    | some vars => [("env_snapshot", .obj (vars.map fun (name, v) => (name, .str v)))]
  ("step_index", .num s.index) :: snapshot ++ [("step_record", actionFields s.action)]

/-- The frame at place `index`. -/
def frameFields (index : Nat) (f : TracebackFrame) : Json :=
  let location := (f.location.map fun loc => ("source_location", locationFields loc)).toList
  let step := (f.step.map stepFields).getD []
  .obj ([("frame_index", .num index), ("name", .str f.name)] ++ location ++ step)

/-- The JSON document of a traceback. -/
def json (t : Traceback) : Json :=
  .obj
    [("error", .obj
        [("type", .str errorType),
         ("message", .str t.fault.cause.message),
         ("failing_step_index", (t.lastStep.map fun i => Json.num i).getD .null)]),
     ("traceback", .arr (t.frames.mapIdx frameFields))]

end Traceback

end VectorLang
