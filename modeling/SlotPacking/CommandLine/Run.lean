import SlotPacking.CommandLine.Arguments
import SlotPacking.CommandLine.Files
import SlotPacking.Json.Export

/-!
The packing command: it loads a model and an image, packs them, reports the
scale of each stage, and writes the operands if it is asked to.
-/
namespace SlotPacking.CommandLine

inductive RunError where
  | unreadable (path : String) (error : FileError)
  | load (error : LoadError)
  | pack (failure : Failure)
  | output (path : String) (error : FileError)

/-- The text of an error; a fault has none of its own. -/
def RunError.message : RunError → String
  | .unreadable path error => loadMessage path error.message
  | .load error => error.message
  | .pack (.rejected error) => error.message
  | .pack (.fault _) => "internal fault"
  | .output path error => s!"failed to write operands to {path}: {error.message}"

/-- The lines that sum up a packed program. -/
def summary (program : Program Float) (level : Nat) : List String :=
  s!"Packed {program.operands.size} operands at level {level}" :: "Output scales:" ::
    Stage.all.filterMap fun stage =>
      (program.outputScales.get? stage.name).map fun scale =>
        s!"    {stage.name}: {FloatStyle.scientific.text scale.toFloat} ({scale.text})"

section Run
variable {m : Type → Type} [Monad m] (files : Files m)

/-- The outcome of loading a file as a model or an image. -/
def loadFile {β : Type} (load : String → String → Except LoadError β) (path : String) :
    ExceptT RunError m β := do
  match ← files.read path with
  | .error e => throw (.unreadable path e)
  | .ok content =>
    match decode content with
    | .error e => throw (.unreadable path e)
    | .ok text =>
      match load path text with
      | .error e => throw (.load e)
      | .ok x => return x

def pack (args : Arguments) : ExceptT RunError m Unit := do
  let model ← loadFile files loadModel args.params
  let image ← loadFile files loadImage args.image
  match assemble image args.level model .standard with
  | .error e => throw (.pack e)
  | .ok program =>
    for line in summary program args.level do
      files.report line
    match args.output with
    | none => return
    | some path =>
      match ← files.write path (Json.writeProgram "" program) with
      | .ok () => return
      | .error e => throw (.output path e)

/-- Runs the command and gives its exit code. -/
def run (args : Arguments) : m Nat := do
  match ← (pack files args).run with
  | .ok () => return 0
  | .error e =>
    files.report s!"error: {e.message}"
    return 1

end Run
end SlotPacking.CommandLine
