import DuckDB.Common.Constants
import DuckDB.Parser.ParsedExpression

/-!
# Frame clauses of window functions

The grammar (`gram.y` of `libpg_query`) turns a frame clause into the bits `frameOptions`, and
`TransformWindowDef` turns these into the two boundaries (`transform_function.cpp`).
-/

namespace DuckDB

/-- `frame_bound`. -/
inductive FrameBound where
  | unboundedPreceding
  | unboundedFollowing
  | currentRow
  | valuePreceding
  | valueFollowing
deriving DecidableEq, Repr

/-- A frame clause; without BETWEEN there is no second bound. -/
structure FrameClause where
  isRows : Bool
  start : FrameBound
  stop : Option FrameBound
deriving DecidableEq, Repr

namespace FrameClause

/-- The option `FRAMEOPTION_START_...` of a bound. The option `FRAMEOPTION_END_...` is the next
bit. -/
def startOption : FrameBound → ℕ
  | .unboundedPreceding => 0x10
  | .unboundedFollowing => 0x40
  | .currentRow => 0x100
  | .valuePreceding => 0x400
  | .valueFollowing => 0x1000

@[inherit_doc startOption]
def endOption (bound : FrameBound) : ℕ := startOption bound <<< 1

/-- Some of the bits of a mask are set. -/
def isSet (frameOptions mask : ℕ) : Bool := frameOptions &&& mask ≠ 0

/-- `frame_extent`. -/
def frameExtent (start : FrameBound) (stop : Option FrameBound) : Except Exception ℕ := do
  let frameOptions := match stop with
    | none => startOption start
    | some stop => startOption start ||| endOption stop ||| 0x8
  if isSet frameOptions (startOption .unboundedFollowing) then
    throw (.parserException "frame start cannot be UNBOUNDED FOLLOWING")
  match stop with
  | none =>
    if isSet frameOptions (startOption .valueFollowing) then
      throw (.parserException "frame starting from following row cannot end with current row")
    return frameOptions ||| endOption .currentRow
  | some _ =>
    if isSet frameOptions (endOption .unboundedPreceding) then
      throw (.parserException "frame end cannot be UNBOUNDED PRECEDING")
    if isSet frameOptions (startOption .currentRow) &&
        isSet frameOptions (endOption .valuePreceding) then
      throw (.parserException "frame starting from current row cannot have preceding rows")
    if isSet frameOptions (startOption .valueFollowing) &&
        isSet frameOptions (endOption .valuePreceding ||| endOption .currentRow) then
      throw (.parserException "frame starting from following row cannot have preceding rows")
    return frameOptions

/-- `opt_frame_clause`. -/
def frameOptions (clause : FrameClause) : Except Exception ℕ := do
  let frameOptions ← frameExtent clause.start clause.stop
  if clause.isRows then return frameOptions ||| 0x1 ||| 0x4
  let frameOptions := frameOptions ||| 0x1 ||| 0x2
  if isSet frameOptions (startOption .valuePreceding ||| endOption .valuePreceding) then
    throw (.parserException "RANGE PRECEDING is only supported with UNBOUNDED")
  if isSet frameOptions (startOption .valueFollowing ||| endOption .valueFollowing) then
    throw (.parserException "RANGE FOLLOWING is only supported with UNBOUNDED")
  return frameOptions

/-- The boundary for the options of the start or of the end of a frame. -/
def boundary (frameOptions : ℕ) (option : FrameBound → ℕ) : WindowBoundary :=
  if isSet frameOptions (option .unboundedPreceding) then .unboundedPreceding
  else if isSet frameOptions (option .unboundedFollowing) then .unboundedFollowing
  else if isSet frameOptions (option .valuePreceding) then .exprPreceding
  else if isSet frameOptions (option .valueFollowing) then .exprFollowing
  else if isSet frameOptions (option .currentRow ||| 0x2) then .currentRowRange
  else if isSet frameOptions (option .currentRow ||| 0x4) then .currentRowRows
  else .invalid

/-- `TransformWindowDef`: the boundaries of the frame. `hasStart` and `hasEnd` say if there are
expressions for them. -/
def transformWindowDef (frameOptions : ℕ) (hasStart hasEnd : Bool) :
    Except Exception (WindowBoundary × WindowBoundary) := do
  if isSet frameOptions (endOption .unboundedPreceding) ||
      isSet frameOptions (startOption .unboundedFollowing) then
    throw (.exception ("Window frames starting with unbounded following or ending in unbounded " ++
      "preceding make no sense"))
  let start := boundary frameOptions startOption
  let stop := boundary frameOptions endOption
  if start = .invalid || stop = .invalid then throw .assertion
  if (start = .exprPreceding && !hasStart) || (stop = .exprPreceding && !hasEnd) then
    throw (.exception "Failed to transform window boundary expression")
  return (start, stop)

/-- The second bound. -/
def lastBound (clause : FrameClause) : FrameBound := clause.stop.getD .currentRow

/-- The boundary that a bound becomes: CURRENT ROW does so without regard to ROWS. -/
def transformed : FrameBound → WindowBoundary
  | .unboundedPreceding => .unboundedPreceding
  | .unboundedFollowing => .unboundedFollowing
  | .currentRow => .currentRowRange
  | .valuePreceding => .exprPreceding
  | .valueFollowing => .exprFollowing

/-- The clauses that the grammar accepts. -/
structure Accepted (clause : FrameClause) : Prop where
  start_ne : clause.start ≠ .unboundedFollowing
  last_ne : clause.lastBound ≠ .unboundedPreceding
  order : clause.lastBound = .valuePreceding →
    clause.start = .unboundedPreceding ∨ clause.start = .valuePreceding
  current : clause.lastBound = .currentRow → clause.start ≠ .valueFollowing

/-- **The boundaries** of a clause that is accepted. -/
theorem eq_transformed {clause : FrameClause} {hasStart hasEnd : Bool}
    {boundaries : WindowBoundary × WindowBoundary}
    (h : (clause.frameOptions >>= (transformWindowDef · hasStart hasEnd)) = .ok boundaries) :
    clause.Accepted ∧ boundaries = (transformed clause.start, transformed clause.lastBound) := by
  have hall : match clause.frameOptions >>= (transformWindowDef · hasStart hasEnd) with
      | .error _ => True
      | .ok boundaries => clause.Accepted ∧
        boundaries = (transformed clause.start, transformed clause.lastBound) := by
    obtain ⟨isRows, first, last⟩ := clause
    cases isRows <;> cases first <;> rcases last with _ | last <;> try cases last
    all_goals
      cases hasStart <;> cases hasEnd <;> first
        | exact trivial
        | exact ⟨⟨by decide, by decide, by decide, by decide⟩, rfl⟩
  rwa [h] at hall

end FrameClause

end DuckDB
