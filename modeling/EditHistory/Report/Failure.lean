import EditHistory.Archive.Recorder
import EditHistory.Report.Calendar
import EditHistory.Report.Json

/-! Reports on tasks whose recording failed. -/
namespace EditHistory
namespace Failure

def contributorJson : Contributor → Json
  | .registered id name =>
    Json.object [("id", match id with | some n => .num n | none => .null), ("name", .str name)]
  | .anonymous address => Json.object [("address", .str address)]

/-- Where a text holds unpaired surrogates its units are given as well. -/
def revisionJson (r : Revision) : Json :=
  let units :=
    if r.text.hasUnpaired then [("units", .arr (r.text.map fun u => .num u.toNat))] else []
  Json.object ([("sequence", .num r.sequence), ("revision_id", .num r.id),
    ("timestamp", .str r.timestamp.text), ("comment", .str r.comment),
    ("contributor", contributorJson r.contributor), ("minor", .bool r.minor),
    ("text", .str r.text.toStringLossy)] ++ units)

/-- The counter of a diff that does not lead to its revision. -/
def counterOf : RecorderError → Nat
  | .verification _ _ counter _ => counter
  | .settings _ | .taskOrder .. | .encode .. => 0

def fileName (task : Task Revision) (error : RecorderError) : String :=
  s!"article-{task.heading.articleId}-part-{task.part}-rev-{counterOf error}.json"

def content (task : Task Revision) (error : RecorderError) : String :=
  Json.page (Json.object [("error", .str error.message), ("article_id", .num task.heading.articleId),
    ("article_name", .str task.heading.articleName), ("part_index", .num task.part),
    ("task_type", .str task.kind.name), ("revisions", .arr (task.items.map revisionJson))]) ++ "\n"

end Failure
end EditHistory
