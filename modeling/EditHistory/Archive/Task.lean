import EditHistory.Archive.Revision

/-! Tasks: the items of an article in portions of bounded size. An article that fits into one
portion is one full task; otherwise there is a first, any number of further, and a last task. -/
namespace EditHistory

inductive TaskKind where
  /-- The whole article. -/
  | full
  | first
  | middle
  | last
deriving DecidableEq, Repr

namespace TaskKind

def startsArticle : TaskKind → Bool
  | .full | .first => true
  | .middle | .last => false

def endsArticle : TaskKind → Bool
  | .full | .last => true
  | .first | .middle => false

def name : TaskKind → String
  | .full => "full"
  | .first => "partial-first"
  | .middle => "partial"
  | .last => "partial-last"

end TaskKind

/-- The article that a task belongs to. -/
structure Heading where
  articleId : Nat
  articleName : String
deriving DecidableEq, Repr

structure Task (α : Type) where
  heading : Heading
  /-- The index of the portion in its article. -/
  part : Nat
  kind : TaskKind
  items : List α
  byteSize : Nat
deriving DecidableEq, Repr

namespace Task

/-- Portions are numbered in 32-bit words. -/
def partLimit : Nat := 0x100000000

/-- The index of the portion behind another one. Behind the greatest word it is zero again. -/
def partAfter (part : Nat) : Nat := (part + 1) % partLimit

variable {α : Type} [Sized α]

def empty (heading : Heading) (part : Nat) (kind : TaskKind) : Task α := ⟨heading, part, kind, [], 0⟩

/-- A task of the given items, with the sum of their sizes. -/
def ofItems (heading : Heading) (part : Nat) (kind : TaskKind) (items : List α) : Task α :=
  ⟨heading, part, kind, items, items.foldr (fun item sum => Sized.byteSize item + sum) 0⟩

def push (t : Task α) (item : α) : Task α :=
  { t with items := t.items ++ [item], byteSize := t.byteSize + Sized.byteSize item }

end Task

/-- Collects the items of one article into tasks. -/
structure Portioner (α : Type) where
  heading : Heading
  limit : Nat
  /-- The items of the task that is still open. -/
  items : Array α
  byteSize : Nat
  /-- The index of the task that is still open: the number of tasks handed out, as a word. -/
  part : Nat

namespace Portioner

variable {α : Type} [Sized α]

def start (heading : Heading) (limit : Nat) : Portioner α := ⟨heading, limit, #[], 0, 0⟩

/-- Hands out the open task and opens the next one. -/
def take (p : Portioner α) (kind : TaskKind) : Task α × Portioner α :=
  (⟨p.heading, p.part, kind, p.items.toList, p.byteSize⟩,
    { p with items := #[], byteSize := 0, part := Task.partAfter p.part })

/-- Adds an item. A task that grows over the limit is handed out. -/
def push (p : Portioner α) (item : α) : Option (Task α) × Portioner α :=
  let p := { p with items := p.items.push item, byteSize := p.byteSize + Sized.byteSize item }
  if p.limit < p.byteSize then
    let (task, p) := p.take (if p.part = 0 then .first else .middle)
    (some task, p)
  else (none, p)

/-- The task that closes the article. It may be empty if others came before it; at part zero, where
none did, there is no task if there is nothing to hand out. -/
def finish (p : Portioner α) : Option (Task α) :=
  if p.part = 0 then
    if p.items.isEmpty then none else some (p.take .full).1
  else some (p.take .last).1

/-- The tasks that further items lead to. -/
def tasksOf (p : Portioner α) : List α → List (Task α)
  | [] => p.finish.toList
  | item :: rest =>
    match p.push item with
    | (done, p) => done.toList ++ tasksOf p rest

end Portioner

/-- The items of an article as tasks. -/
def Task.split {α : Type} [Sized α] (heading : Heading) (limit : Nat) (items : List α) :
    List (Task α) :=
  (Portioner.start heading limit).tasksOf items

end EditHistory
