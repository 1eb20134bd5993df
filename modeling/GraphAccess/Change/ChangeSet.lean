import GraphAccess.Change.ResourceEdit
import GraphAccess.Change.Update
import GraphAccess.Rdf.Graph
import GraphAccess.Retrieval.Settings

namespace GraphAccess

/-- Changes to a store: the edit of a resource, statements as they are, or any of these at once. -/
inductive ChangeSet where
  | edit (e : ResourceEdit)
  | statements (added removed : List Triple)
  | merged (parts : List ChangeSet)
  deriving Repr

namespace ChangeSet

mutual

/-- The statements to add. -/
def added : ChangeSet → List Triple
  | edit e => e.added
  | statements added _ => added
  | merged parts => addedByAll parts

def addedByAll : List ChangeSet → List Triple
  | [] => []
  | c :: cs => added c ++ addedByAll cs

end

mutual

/-- The statements to remove. -/
def removed : ChangeSet → List Triple
  | edit e => e.removed
  | statements _ removed => removed
  | merged parts => removedByAll parts

def removedByAll : List ChangeSet → List Triple
  | [] => []
  | c :: cs => removed c ++ removedByAll cs

end

theorem added_merged (parts : List ChangeSet) : (merged parts).added = parts.flatMap added := by
  rw [added]
  induction parts with
  | nil => rfl
  | cons c cs ih => rw [addedByAll, ih, List.flatMap_cons]

theorem removed_merged (parts : List ChangeSet) :
    (merged parts).removed = parts.flatMap removed := by
  rw [removed]
  induction parts with
  | nil => rfl
  | cons c cs ih => rw [removedByAll, ih, List.flatMap_cons]

def hasChanges (c : ChangeSet) : Bool := !c.added.isEmpty || !c.removed.isEmpty

/-- The update that makes the changes, in a graph if one is given. -/
def update (c : ChangeSet) (graph : Option Iri) : Except ChangeError String :=
  Update.text graph c.removed c.added

/-- The update in the graph of some settings. -/
def updateWith (c : ChangeSet) (settings : Settings) : Except ChangeError String :=
  c.update settings.graph

/-- The graph of the statements to add. It could not show what is removed. -/
def graph (c : ChangeSet) : Except ChangeError Graph :=
  if c.removed = [] then .ok (.ofTriples c.added)
  else .error (.removalsInGraph c.removed.length)

end ChangeSet

end GraphAccess
