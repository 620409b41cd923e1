import DuckDB.Common.Value
import Mathlib.Data.List.Basic

/-!
# COPY TO and COPY FROM

`PhysicalCopy` writes the rows of a query to a file and reads rows from a file
(`physical_copy.cpp`), for VARCHAR columns and without a column list. A string is the list of its
characters, and `none` is NULL.

The reader goes through a line character by character. `line.substr(start, i - start)` is the
`field` of the state, so the test `i != start` is whether the field has characters already; the
extra `i++` after a closing quote is the flag `skip`.

`readLine` gives the strings that are cut out of a line, and `storeLine` the values that become of
them, for a line of bytes.
-/

namespace DuckDB

/-- `struct CopyInformation`, the options that the operator looks at. -/
structure CopyInformation where
  delimiter : Char := ','
  quote : Char := '"'
  header : Bool := false
deriving DecidableEq, Repr

namespace PhysicalCopy

/-! ### Writing -/

/-- `Value::ToString` of a VARCHAR value. -/
def valueToString : Option (List Char) → List Char
  | none => ['N', 'U', 'L', 'L']
  | some str => str

/-- `WriteQuotedString`: a string is put in quotes if it contains the delimiter. -/
def writeQuotedString (info : CopyInformation) (str : List Char) : List Char :=
  if info.delimiter ∈ str then info.quote :: (str ++ [info.quote]) else str

/-- One line of the file, without the line break. -/
def writeLine (info : CopyInformation) : List (List Char) → List Char
  | [] => []
  | [str] => writeQuotedString info str
  | str :: strs => writeQuotedString info str ++ info.delimiter :: writeLine info strs

/-- What COPY TO writes: the names of the columns, if there is a header, and the rows. -/
def copyTo (info : CopyInformation) (names : List (List Char))
    (rows : List (List (Option (List Char)))) : List Char :=
  (if info.header then writeLine info names ++ ['\n'] else []) ++
    rows.flatMap fun row => writeLine info (row.map valueToString) ++ ['\n']

/-! ### Reading -/

/-- `getline` until the end of the file; `line` has the characters since the last line break. -/
def getLinesFrom (line : List Char) : List Char → List (List Char)
  | [] => if line = [] then [] else [line]
  | c :: rest => if c = '\n' then line :: getLinesFrom [] rest else getLinesFrom (line ++ [c]) rest

/-- The lines of a file. -/
def getLines (content : List Char) : List (List Char) :=
  getLinesFrom [] content

/-- Where the reader is in a line, and the values it has pushed. `column` can be one ahead of the
values, after a trailing delimiter. -/
structure LineState where
  field : List Char := []
  inQuotes : Bool := false
  skip : Bool := false
  column : ℕ := 0
  values : List (Option (List Char)) := []
deriving DecidableEq, Repr

/-- The value of a field: NULL if it has no characters. -/
def valueOf (field : List Char) : Option (List Char) :=
  if field = [] then none else some field

/-- `PhysicalCopy::PushValue`. -/
def pushValue (expectedColumnCount linenr : ℕ) (field : List Char) (state : LineState) :
    Except Exception LineState :=
  if state.column = expectedColumnCount ∧ field = [] then
    -- a single trailing delimiter is skipped
    .ok { state with column := state.column + 1 }
  else if expectedColumnCount ≤ state.column then
    .error (.parserException
      s!"Error on line {linenr}: expected {expectedColumnCount} values but got {state.column + 1}")
  else .ok { state with column := state.column + 1, values := state.values ++ [valueOf field] }

/-- `end_of_field(line, i + 1, delimiter)`, where `rest` follows the character at `i`. -/
def endOfField (info : CopyInformation) (rest : List Char) : Bool :=
  decide (rest.length ≤ 1) || rest.head? == some info.delimiter

variable (info : CopyInformation) (expectedColumnCount linenr : ℕ)

/-- The loop over the characters of a line. -/
def readChars : LineState → List Char → Except Exception LineState
  | state, [] => .ok state
  | state, c :: rest =>
    if state.skip then readChars { state with skip := false } rest
    else if c = info.quote then
      if !state.inQuotes then
        -- quotes in the middle of a field are ignored
        if state.field ≠ [] then readChars { state with field := state.field ++ [c] } rest
        else readChars { state with inQuotes := true } rest
      else if !endOfField info rest then readChars { state with field := state.field ++ [c] } rest
      else
        match pushValue expectedColumnCount linenr state.field state with
        | .error e => .error e
        | .ok state =>
          readChars { state with field := [], inQuotes := false, skip := true } rest
    else if state.inQuotes then readChars { state with field := state.field ++ [c] } rest
    else if c = info.delimiter then
      match pushValue expectedColumnCount linenr state.field state with
      | .error e => .error e
      | .ok state =>
        if rest = [] then pushValue expectedColumnCount linenr [] state
        else readChars { state with field := [] } rest
    else if rest = [] then pushValue expectedColumnCount linenr (state.field ++ [c]) state
    else readChars { state with field := state.field ++ [c] } rest

/-- The checks after the loop over a line. -/
def finishLine (state : LineState) : Except Exception (List (Option (List Char))) :=
  if state.inQuotes then
    .error (.parserException s!"Error on line {linenr}: unterminated quotes")
  else if state.column < expectedColumnCount then
    .error (.parserException
      s!"Error on line {linenr}: expected {expectedColumnCount} values but got {state.column}")
  else .ok state.values

/-- The row of a line. -/
def readLine (line : List Char) : Except Exception (List (Option (List Char))) :=
  (readChars info expectedColumnCount linenr {} line).bind (finishLine expectedColumnCount linenr)

/-- The loop over the lines: the chunks of rows that are appended to the table. `chunk` has the
rows that were read since the last `Flush`. -/
def readLines : ℕ → List (List (Option (List Char))) → List (List Char) →
    Except Exception (List (List (List (Option (List Char)))))
  | _, chunk, [] => .ok (if chunk = [] then [] else [chunk])
  | linenr, chunk, line :: lines =>
    match readLine info expectedColumnCount linenr line with
    | .error e => .error e
    | .ok row =>
      if chunk.length + 1 = standardVectorSize then
        (readLines (linenr + 1) [] lines).map ((chunk ++ [row]) :: ·)
      else readLines (linenr + 1) (chunk ++ [row]) lines

/-- What COPY FROM appends to a table with the given number of columns. -/
def copyFrom (content : List Char) : Except Exception (List (List (Option (List Char)))) :=
  let lines := getLines content
  (if info.header then readLines info expectedColumnCount 1 [] lines.tail
    else readLines info expectedColumnCount 0 [] lines).map List.flatten

end PhysicalCopy

end DuckDB
