import DuckDB.Common.Constants

/-!
# The segment tree of window aggregates

What `ConstructTree` and `Compute` aggregate (`execution/window_segment_tree.cpp`). A node stands
here for the rows whose values have been aggregated into it, so the model follows the positions and
not the arithmetic of SUM, MIN, MAX and AVG.
-/

namespace DuckDB

/-- `TREE_FANOUT`. -/
def treeFanout : ℕ :=
  64

/-- `class WindowSegmentTree`. -/
structure WindowSegmentTree where
  levelsFlatNative : List (List ℕ) := []
  levelsFlatStart : List ℕ := [0]

namespace WindowSegmentTree

/-- The node at a position of a level; level 0 is the data itself. -/
def node (tree : WindowSegmentTree) (level i : ℕ) : Option (List ℕ) :=
  tree.levelsFlatStart[level - 1]?.bind fun start => tree.levelsFlatNative[i + start]?

/-- The rows that `WindowSegmentValue` aggregates. -/
def windowSegmentValue (tree : WindowSegmentTree) (level first last : ℕ) : List ℕ :=
  if first = last then []
  else if level = 0 then List.range' first (last - first)
  else (List.range' first (last - first)).flatMap fun i => (tree.node level i).getD []

/-- The node for a group of the nodes of a level. -/
def addNode (level levelSize : ℕ) (tree : WindowSegmentTree) (group : ℕ) : WindowSegmentTree :=
  let pos := group * treeFanout
  let value := tree.windowSegmentValue level pos (min levelSize (pos + treeFanout))
  { tree with levelsFlatNative := tree.levelsFlatNative ++ [value] }

/-- The loop over the groups of a level. -/
def constructLevel (tree : WindowSegmentTree) (level levelSize : ℕ) : WindowSegmentTree :=
  (List.range ((levelSize + treeFanout - 1) / treeFanout)).foldl (addNode level levelSize) tree

/-- The loop over the levels. The size of the next level is the number of nodes that have been
added. -/
def constructLevels (tree : WindowSegmentTree) (level levelSize : ℕ) : WindowSegmentTree :=
  if levelSize > 1 then
    let tree := constructLevel tree level levelSize
    let start := tree.levelsFlatNative.length
    constructLevels { tree with levelsFlatStart := tree.levelsFlatStart ++ [start] } (level + 1)
      ((levelSize + treeFanout - 1) / treeFanout)
  else tree
termination_by levelSize
decreasing_by simp only [treeFanout]; omega

/-- `ConstructTree`. -/
def constructTree (count : ℕ) : WindowSegmentTree :=
  constructLevels {} 0 count

/-- A call of `WindowSegmentValue`. -/
structure Visit where
  level : ℕ
  first : ℕ
  last : ℕ

/-- The loop of `Compute`, with the number of levels that are left. -/
def computeLoop : ℕ → ℕ → ℕ → ℕ → List Visit
  | 0, _, _, _ => []
  | levels + 1, level, first, last =>
    let parentFirst := first / treeFanout
    let parentLast := last / treeFanout
    if parentFirst = parentLast then [⟨level, first, last⟩]
    else
      let groupFirst := parentFirst * treeFanout
      let groupLast := parentLast * treeFanout
      (if first ≠ groupFirst then [⟨level, first, groupFirst + treeFanout⟩] else []) ++
        ((if last ≠ groupLast then [⟨level, groupLast, last⟩] else []) ++
          computeLoop levels (level + 1)
            (if first ≠ groupFirst then parentFirst + 1 else parentFirst) parentLast)

/-- `Compute`. -/
def compute (tree : WindowSegmentTree) (first last : ℕ) : List Visit :=
  computeLoop (tree.levelsFlatStart.length + 1) 0 first last

/-- The rows of a call. -/
def visited (tree : WindowSegmentTree) (visit : Visit) : List ℕ :=
  tree.windowSegmentValue visit.level visit.first visit.last

end WindowSegmentTree

end DuckDB
