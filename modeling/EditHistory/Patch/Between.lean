import EditHistory.Patch.Apply
import EditHistory.Alignment.Search
import EditHistory.Alignment.Stationary

/-! The patch between two texts. A walk through the blocks of both sides in parallel leaves the
stationary blocks alone and gives each other block one edit, removals in front of additions; an
unmatched block that meets an unmatched block is one replacement. -/
namespace EditHistory
namespace Alignment

/-- The edits that remain when the walk has reached the given blocks. -/
def editsFrom (stays : Block → Bool) (current : Text) : List Block → List Block → Patch
  | [], [] => []
  | [], b :: bs =>
    if stays b then editsFrom stays current [] bs else addition b :: editsFrom stays current [] bs
  | a :: as, [] =>
    if stays a then editsFrom stays current as []
    else removal a :: editsFrom stays current as []
  | a :: as, b :: bs =>
    if stays a then
      if stays b then editsFrom stays current as bs
      else addition b :: editsFrom stays current (a :: as) bs
    else if a.id.isNone && b.id.isNone then
      .replace a.start a.length (b.units current) :: editsFrom stays current as bs
    else removal a :: editsFrom stays current as (b :: bs)
termination_by as bs => as.length + bs.length
where
  addition (b : Block) : Edit Text :=
    match b.id with
    | none => .insert b.start (b.units current)
    | some id => .paste b.start id
  removal (a : Block) : Edit Text :=
    match a.id with
    | none => .delete a.start a.length
    | some id => .cut a.start a.length id

/-- The edits that rebuild the current text along an alignment. -/
def edits (al : Alignment) (current : Text) : Patch :=
  let flags := al.stationary
  editsFrom (fun b => b.id.any fun id => flags.getD id false) current al.previous al.current

end Alignment

/-- The patch from one text to the next, with moves for common blocks longer than the threshold. -/
def Patch.ofTexts (threshold : Nat) (previous current : Text) : Patch :=
  (Alignment.ofTexts threshold previous current).edits current

/-- The patch under a threshold from the settings, where one below one counts as one. -/
def Patch.between (threshold : Nat) : Text → Text → Patch := ofTexts (max threshold 1)

end EditHistory
