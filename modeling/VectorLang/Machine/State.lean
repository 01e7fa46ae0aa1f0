import VectorLang.Machine.Bindings
import VectorLang.Machine.Fault

/-!
# The state of a run

A run keeps the lines printed so far, a log of its steps and a stack of frames.  A frame
holds the variables of one function call.  Below all calls lies the frame of the global
variables, and on it the frame of the program itself.

* `CallStack.pop_push`        closing a call takes away what opening it added
* `CallStack.length_frames`   the depth of a stack is the number of its frames
-/

namespace VectorLang

/-! ## Frames -/

/-- The variables of one function call. -/
structure Frame where
  /-- The name of the function. -/
  name : String
  /-- The variables that have a value. -/
  vars : Bindings
  /-- The number of the frame: how many frames were made before it. -/
  id : Nat
  /-- Where the function was called. -/
  calledAt : Option Location
deriving DecidableEq, Inhabited

namespace Frame

/-- The text of a frame's number. -/
def idText (id : Nat) : String :=
  "f_" ++ String.ofList (Numeral.padded 4 id.repr.toList)

/-- Gives a variable a value. -/
def setVariable (name : String) (v : Value) (f : Frame) : Frame :=
  { f with vars := f.vars.set name v }

/-- Removes a variable. -/
def eraseVariable (name : String) (f : Frame) : Frame :=
  { f with vars := f.vars.erase name }

end Frame

/-- The frames of all open calls. -/
structure CallStack where
  /-- The frame of the global variables. -/
  globals : Frame
  /-- The frame of the innermost call. -/
  top : Frame
  /-- The frames of the other calls, the innermost first. -/
  below : List Frame
deriving DecidableEq, Inhabited

namespace CallStack

/-- The number of frames. -/
def depth (s : CallStack) : Nat := s.below.length + 2

/-- All frames, from the globals to the innermost call. -/
def frames (s : CallStack) : List Frame :=
  s.globals :: (s.top :: s.below).reverse

/-- The frame that holds the global variables or those of the innermost call. -/
def owner (isGlobal : Bool) (s : CallStack) : Frame :=
  if isGlobal then s.globals else s.top

/-- Changes that frame. -/
def modifyOwner (isGlobal : Bool) (f : Frame → Frame) (s : CallStack) : CallStack :=
  if isGlobal then { s with globals := f s.globals } else { s with top := f s.top }

/-- Opens a call. -/
def push (f : Frame) (s : CallStack) : CallStack :=
  { s with top := f, below := s.top :: s.below }

/-- Closes the innermost call.  The program itself stays open. -/
def pop (s : CallStack) : CallStack :=
  match s.below with
  | [] => s
  | f :: fs => { s with top := f, below := fs }

@[simp] theorem pop_push (f : Frame) (s : CallStack) : (s.push f).pop = s := rfl

@[simp] theorem depth_push (f : Frame) (s : CallStack) : (s.push f).depth = s.depth + 1 := rfl

@[simp] theorem depth_modifyOwner (isGlobal : Bool) (f : Frame → Frame) (s : CallStack) :
    (s.modifyOwner isGlobal f).depth = s.depth := by
  cases isGlobal <;> rfl

@[simp] theorem length_frames (s : CallStack) : s.frames.length = s.depth := by
  simp [frames, depth]

end CallStack

/-- The largest number of frames that a call may find. -/
def maxDepth : Nat := 100

/-! ## Steps -/

/-- What a step does. -/
inductive Action where
  /-- Evaluates a node of this kind. -/
  | node (label : String)
  /-- Calls a function. -/
  | call (function : String)
deriving DecidableEq, Inhabited

/-- The name of an action in diagnostics. -/
def Action.rule : Action → String
  | node label => label
  | call _ => "CALL"

/-- One logged step of a run. -/
structure Step where
  /-- The number of the step: how many were logged before it. -/
  index : Nat
  /-- The number of the frame that was innermost. -/
  frame : Nat
  /-- The location of the node that was evaluated. -/
  location : Location
  /-- What was done. -/
  action : Action
  /-- The texts of the variables of that frame, if they are logged. -/
  snapshot : Option (List (String × String))
deriving DecidableEq, Inhabited

/-- The longest text of a variable that a snapshot shows in full. -/
def snapshotWidth : Nat := 80

/-- A text cut to the width of a snapshot. -/
def clip (s : String) : String :=
  if s.length ≤ snapshotWidth then s
  else String.ofList (s.toList.take (snapshotWidth - 3)) ++ "..."

/-- The type of a value and its text, as a snapshot shows them. -/
def Value.snapshot? (v : Value) : Option String :=
  v.render?.map fun s => v.typeName ++ ":" ++ clip s

/-- The texts of all variables of a frame, unless one of them cannot be shown. -/
def Frame.snapshot? (f : Frame) : Option (List (String × String)) :=
  f.vars.entries.mapM fun (name, v) => v.snapshot?.map fun s => (name, s)

/-! ## Runs -/

/-- A run at one moment. -/
structure Machine where
  /-- The lines printed so far. -/
  output : Array String
  /-- The steps so far. -/
  log : Array Step
  /-- The frames of all open calls. -/
  stack : CallStack
  /-- How many frames have been made. -/
  frameCount : Nat
deriving DecidableEq, Inhabited

namespace Machine

/-- The state before the first step of a program, whose frames are those of the globals
    and of the program itself. -/
def start (globals program : String) : Machine :=
  ⟨#[], #[], ⟨⟨globals, .empty, 0, none⟩, ⟨program, .empty, 1, none⟩, []⟩, 2⟩

/-- The last step of a frame. -/
def lastStepOf? (m : Machine) (frame : Nat) : Option Step :=
  m.log.toList.reverse.find? fun s => s.frame = frame

end Machine

end VectorLang
