import AppManager.Units.UnitProcess

/-! The unit files as they are read for the identifiers of applications: without their
comments and the blanks at the begin of lines, continued lines in one. -/

namespace AppManager.Units
open AppManager.Lib

inductive Reading where
  | begin
  | line
  | comment
  deriving DecidableEq, Repr

/-- The backslash at the end of a line, or of the file, is written as a space. -/
def normalizeFrom (cmtchrs : Bytes) : Reading → Bytes → Bytes
  | _, [] => []
  | mode, byte :: rest =>
    if mode = .comment then normalizeFrom cmtchrs (if byte = newline then .begin else .comment) rest
    else if mode = .begin ∧ (byte = newline ∨ isblank byte) then normalizeFrom cmtchrs .begin rest
    else if mode = .begin ∧ byte ∈ cmtchrs then normalizeFrom cmtchrs .comment rest
    else if byte = newline then newline :: normalizeFrom cmtchrs .begin rest
    else if byte = backslash ∧ (rest = [] ∨ rest.head? = some newline) then
      32 :: normalizeFrom cmtchrs .begin rest
    else byte :: normalizeFrom cmtchrs .line rest

def normalizeUnitFile (content : Bytes) : Bytes := normalizeFrom (ascii ";#") .begin content

end AppManager.Units
