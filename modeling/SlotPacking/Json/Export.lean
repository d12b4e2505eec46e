import SlotPacking.Json.Writer
import SlotPacking.Program

/-! JSON text of bundles, scale tables and whole programs. -/
namespace SlotPacking.Json

def writeMember (out : String) (name : String) : String := (out ++ quoted name).push ':'

/-- An operand: its exact scale, the binary64 number nearest to it, and its slots. -/
def writeOperand {n : Nat} (out : String) (operand : Operand Float n) : String :=
  let out := writeMember (out.push '\x7b') "scale" ++ quoted operand.scale.text
  let out := writeMember (out.push ',') "scale_f64" ++ numberToken operand.scale.toFloat
  (writeFloats (writeMember (out.push ',') "values") operand.values.toArray).push '\x7d'

def writeBundle {n : Nat} (out : String) (bundle : Bundle Float n) : String :=
  writeObject writeOperand out bundle.toList

def writeScaleTable (out : String) (table : ScaleTable) : String :=
  writeObject (fun out scale => out ++ quoted scale.text) out table.toList

def writeProgram (out : String) (program : Program Float) : String :=
  let out := writeBundle (writeMember (out.push '\x7b') "operands") program.operands
  (writeScaleTable (writeMember (out.push ',') "output_scales") program.outputScales).push '\x7d'

end SlotPacking.Json
