import RedB.Tran.Parser
import RedB.Tran.Shape

/-!
# The assembly text

The translator writes its data records and then its instructions, the last one first,
each on a line.
-/

namespace RedB.Tran

/-- An element of `m_code`. -/
def Line.text : Line → Text
  | .call op => "CALL ".toList ++ op.text.toList
  | .push text => "PUSH ".toList ++ text
  | .pusho index _ => "PUSHO ".toList ++ (index.map toText).getD []
  | .nop => "NOP".toList
  | .ret => "RET".toList
  | .hole => []

/-- The lines of the data records. -/
def dumpData (data : List Token) : Text :=
  data.flatMap fun tok => ' ' :: ' ' :: toText (toSchemaType tok.type) ++ ' ' :: tok.text ++ ['\n']

/-- The lines of the instructions, in the order in which they run. -/
def dumpCode (lines : List Line) : Text := lines.flatMap fun line => ' ' :: ' ' :: line.text ++ ['\n']

/-- `parser::dump`, of `m_data` and `m_code`. -/
def dump (data : List Token) (code : List Line) : Text :=
  ".DATA\n".toList ++ dumpData data ++ "%%\n.TEXT\n".toList ++ dumpCode code.reverse ++ "%%\n".toList

end RedB.Tran
