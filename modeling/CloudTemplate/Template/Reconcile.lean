import CloudTemplate.Tree
/-! Stray nulls. A function that could not be resolved leaves a null among the other items of an array.
Reconciling a tree takes such nulls out, counts them, and notes which resources and properties have
lost data or have none: these are dead and are not judged later. -/
namespace CloudTemplate

structure DeadEntries where
  resources : List String
  properties : List (String × String)
  deriving DecidableEq, Repr

namespace DeadEntries

def none : DeadEntries := ⟨[], []⟩

def markResource (dead : DeadEntries) (resource : String) : DeadEntries :=
  { dead with resources := dead.resources.insert resource }

def markProperty (dead : DeadEntries) (resource property : String) : DeadEntries :=
  { dead with properties := dead.properties.insert (resource, property) }

def isDeadResource (dead : DeadEntries) (resource : String) : Bool := dead.resources.contains resource

def isDeadProperty (dead : DeadEntries) (resource property : String) : Bool :=
  dead.properties.contains (resource, property)

def isEmpty (dead : DeadEntries) : Bool := dead.resources.isEmpty && dead.properties.isEmpty

end DeadEntries

def holdsValue (items : List Tree) : Bool := items.any fun t => !t.isNull

mutual

def Tree.prune : Tree → Tree
  | .array items => .array (pruneItems (holdsValue items) items)
  | .object entries => .object (pruneEntries entries)
  | value => value
termination_by structural t => t

def pruneItems (drop : Bool) : List Tree → List Tree
  | [] => []
  | t :: rest => if drop && t.isNull then pruneItems drop rest else t.prune :: pruneItems drop rest
termination_by structural ts => ts

def pruneEntries : List (String × Tree) → List (String × Tree)
  | [] => []
  | (key, t) :: rest => (key, t.prune) :: pruneEntries rest
termination_by structural es => es

end

mutual

def Tree.strays : Tree → Nat
  | .array items => (if holdsValue items then items.countP Tree.isNull else 0) + straysOfItems items
  | .object entries => straysOfEntries entries
  | _ => 0
termination_by structural t => t

def straysOfItems : List Tree → Nat
  | [] => 0
  | t :: rest => t.strays + straysOfItems rest
termination_by structural ts => ts

def straysOfEntries : List (String × Tree) → Nat
  | [] => 0
  | (_, t) :: rest => t.strays + straysOfEntries rest
termination_by structural es => es

end

structure Reconciliation where
  removed : Nat
  dead : DeadEntries
  deriving DecidableEq, Repr

def Reconciliation.nothing : Reconciliation := ⟨0, .none⟩

def Reconciliation.notice (r : Reconciliation) : Option String :=
  if r.removed = 0 then none
  else if r.removed = 1 then
    some ("Removed 1 null value left by an unresolved intrinsic function. "
      ++ "Inspect that part of the template manually.")
  else
    some ("Removed " ++ toString r.removed ++ " null values left by unresolved intrinsic functions. "
      ++ "Inspect those parts of the template manually.")

def Reconciliation.remove (r : Reconciliation) (count : Nat) : Reconciliation :=
  { r with removed := r.removed + count }

def reconcileProperty (resource : String) (r : Reconciliation) (entry : String × Tree) :
    Reconciliation :=
  if entry.2.isNull || 0 < entry.2.strays then
    { r.remove entry.2.strays with dead := r.dead.markProperty resource entry.1 }
  else r

def reconcileAttribute (resource : String) (r : Reconciliation) (entry : String × Tree) :
    Reconciliation :=
  if entry.1 != "Properties" then r.remove entry.2.strays
  else
    match entry.2 with
    | .null => { r with dead := r.dead.markResource resource }
    | .object properties => properties.foldl (reconcileProperty resource) r
    | _ => r

def reconcileResource (r : Reconciliation) (entry : String × Tree) : Reconciliation :=
  match entry.2 with
  | .null => { r with dead := r.dead.markResource entry.1 }
  | .object body => body.foldl (reconcileAttribute entry.1) r
  | _ => r

def reconcileSection (r : Reconciliation) (entry : String × Tree) : Reconciliation :=
  if entry.1 != "Resources" then r.remove entry.2.strays
  else
    match entry.2 with
    | .object resources => resources.foldl reconcileResource r
    | _ => r

def mapObject (f : String → Tree → Tree) : Tree → Tree
  | .object entries => .object (entries.map fun e => (e.1, f e.1 e.2))
  | value => value

def pruneResource : Tree → Tree :=
  mapObject fun attr value =>
    if attr = "Properties" then mapObject (fun _ property => property.prune) value else value.prune

def pruneRoot : Tree → Tree :=
  mapObject fun key value =>
    if key = "Resources" then mapObject (fun _ body => pruneResource body) value else value.prune

def reconcile (tree : Tree) : Tree × Reconciliation :=
  (pruneRoot tree, match tree with
    | .object root => root.foldl reconcileSection .nothing
    | _ => .nothing)

end CloudTemplate
