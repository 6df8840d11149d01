import Codexon.Closure
import Codexon.DictMerge
import Codexon.Json
import Mathlib.Data.Prod.Lex

/-!
# Codexon.CatalogLineage

The lineage of a catalog: `CatalogWork.finish` and `_CatalogParents` of
`cachemonitor/prepared_store.py`, and the policy on plain dictionaries, `mode_parents` of
`cachemonitor/request_modes.py` with `mode_parent_index` and `mode_context` of
`cachemonitor/prepared_ingest.py`.

A parent is none where it is no `str`, which both sides treat as missing.
-/

namespace Codexon.CatalogLineage

open Closure (search walk chain)

/-- A home and the id of a session. -/
abbrev Key := PyStr × PyStr

/-! ## the tables -/

/-- A row of `catalog_work_sessions`. -/
structure Session where
  parent : Option PyStr
  required : Bool := false

/-- A row of `catalog_work_owners`; `lineage` is the parent of its owner lineage. -/
structure Owner where
  lineage : Option PyStr
  complete : Bool
  admitted : Bool := true

/-- A row of `catalog_work_nodes`. -/
structure Node where
  parent : Option PyStr
  valid : Bool := false

structure Demand where
  selected : List (Option PyStr × PyStr)
  aggregate : Bool

/-- The tables of a catalog, and the items of its dictionary that `finish` sets. -/
structure Work where
  sessions : Dict Key Session := {}
  members : List Key := []
  owners : Dict Key Owner := {}
  nodes : Dict Key Node := {}
  sessionCatalogPresent : Bool := true
  demandMembersPresent : Bool := true
  usageCollectionComplete : Bool := true
  membershipComplete : Bool := false
  aggregateComplete : Bool := false
  selectedResolutions : Option (List (PyStr × Nat)) := none

/-- What was added to a catalog: the rows of `add_membership` and the entries of `add_owners`. -/
structure Catalog where
  sessions : Dict Key (Option PyStr) := {}
  members : List Key := []
  owners : Dict Key (Option PyStr × Bool) := {}
  sessionCatalogPresent : Bool := true
  demandMembersPresent : Bool := true
  usageCollectionComplete : Bool := true

/-- The tables after the rows were added. -/
def Catalog.work (c : Catalog) : Work where
  sessions := c.sessions.mapVal fun _ parent => { parent := parent }
  members := c.members
  owners := c.owners.mapVal fun _ entry => { lineage := entry.1, complete := entry.2 }
  sessionCatalogPresent := c.sessionCatalogPresent
  demandMembersPresent := c.demandMembersPresent
  usageCollectionComplete := c.usageCollectionComplete

/-! ## `finish` -/

/-- `c.home=p.home AND c.parent_sid=p.sid` -/
def children (rows : Dict Key (Option PyStr)) (p : Key) : List Key :=
  (rows.entries.filter fun row => row.1.1 = p.1 ∧ row.2 = some p.2).map Prod.fst

def recursive (rows : Dict Key (Option PyStr)) (start : List Key) : List Key :=
  (search false (children rows) rows.entries.length start start).getD []

def nodeParents (w : Work) : Dict Key (Option PyStr) :=
  w.owners.entries.foldl (fun nodes row => nodes.set row.1 row.2.lineage)
    (w.sessions.mapVal fun _ session => session.parent)

/-- `EXISTS` a node that is the parent. -/
def hasParent (nodes : Dict Key (Option PyStr)) (key : Key) (parent : Option PyStr) : Bool :=
  parent.any fun sid => (nodes.get? (key.1, sid)).isSome

def rooted (nodes : Dict Key (Option PyStr)) : List Key :=
  recursive nodes ((nodes.entries.filter fun node => !hasParent nodes node.1 node.2).map Prod.fst)

def fillNodes (w : Work) : Dict Key Node :=
  let parents := nodeParents w
  let reached := rooted parents
  parents.mapVal fun key parent => { parent := parent, valid := key ∈ reached }

/-- `sid=? AND (? IS NULL OR home=?)` -/
def matched (selection : Option PyStr × PyStr) (key : Key) : Bool :=
  key.2 = selection.2 && selection.1.all fun home => home = key.1

def requireSelected (sessions : Dict Key Session) (selection : Option PyStr × PyStr) :
    Dict Key Session :=
  match (sessions.keys.filter (matched selection)).take 2 with
  | [key] => sessions.mapVal fun k s => { s with required := s.required || decide (k = key) }
  | _ => sessions

/-- `family` makes the descendants required. -/
def requireFamily (sessions : Dict Key Session) : Dict Key Session :=
  let start := (sessions.entries.filter fun row => row.2.required).map Prod.fst
  let family := recursive (sessions.mapVal fun _ session => session.parent) start
  sessions.mapVal fun key s => { s with required := s.required || decide (key ∈ family) }

def admitDemand (w : Work) (aggregate : Bool) : Dict Key Owner :=
  w.owners.mapVal fun key owner =>
    { owner with admitted := owner.complete &&
        if aggregate then decide (key ∈ w.members)
        else (w.sessions.get? key).any Session.required }

def isMissing (w : Work) : Bool :=
  w.sessions.entries.any fun row =>
    row.2.required && !(w.owners.get? row.1).any Owner.admitted

def Work.finish (w : Work) (demand : Option Demand) : Work :=
  let w := { w with nodes := fillNodes w }
  match demand with
  | none => w
  | some demand =>
    let w := { w with
      sessions := requireFamily (demand.selected.foldl requireSelected w.sessions) }
    let w := { w with owners := admitDemand w demand.aggregate }
    let known := w.sessionCatalogPresent && (!demand.aggregate || w.demandMembersPresent)
    let complete := known && !isMissing w
    { w with
      membershipComplete := complete
      aggregateComplete := demand.aggregate && w.usageCollectionComplete
      selectedResolutions :=
        if complete then
          some ((demand.selected.filter (·.1 = none)).map fun selection =>
            (selection.2, (w.sessions.keys.filter fun key => key.2 = selection.2).length))
        else w.selectedResolutions }

/-! ## `_CatalogParents` -/

/-- `n.valid=1 AND EXISTS` a node that is the parent. -/
def parentOf (nodes : Dict Key Node) (key : Key) (node : Node) : Option Key :=
  if node.valid then
    node.parent.bind fun sid => if (nodes.get? (key.1, sid)).isSome then some (key.1, sid) else none
  else none

/-- `__getitem__`, where it does not raise. -/
def Work.parent (w : Work) (key : Key) : Option Key :=
  (w.nodes.get? key).bind (parentOf w.nodes key)

/-- `__iter__` -/
def Work.parentKeys (w : Work) : List Key :=
  ((w.nodes.entries.filter fun node => (parentOf w.nodes node.1 node.2).isSome).map
    Prod.fst).insertionSort fun a b => toLex a ≤ toLex b

/-- `__len__` -/
def Work.parentCount (w : Work) : Nat :=
  (w.nodes.entries.filter fun node => (parentOf w.nodes node.1 node.2).isSome).length

/-! ## plain dictionaries -/

/-- The items of a session that `mode_parents` reads. -/
structure Meta where
  home : PyStr
  id : PyStr
  parent : Option PyStr

def indexed (sessions : List Meta) : Dict Key Meta :=
  sessions.foldl (fun indexed s => indexed.set (s.home, s.id) s) {}

def parents (indexed : Dict Key Meta) : Dict Key Key :=
  indexed.build fun key s =>
    s.parent.bind fun parent =>
      if (indexed.get? (key.1, parent)).isSome then some (key.1, parent) else none

def modeParents (sessions : List Meta) : Dict Key Meta :=
  let indexed := indexed sessions
  let parents := parents indexed
  parents.build fun key first =>
    if walk parents.get? (parents.entries.length + 1) [key] first = some true then
      indexed.get? first
    else none

/-- A catalog as plain dictionaries. -/
structure Plain where
  sessionCatalog : List (Key × Option PyStr)
  modeSources : Dict Key (Option PyStr)
  owners : Dict Key (Option PyStr)

def modeParentIndex (catalog : Plain) : Dict Key Key :=
  let entries := (catalog.modeSources.update catalog.owners.entries).entries
  let metadata := (catalog.sessionCatalog ++ entries).map fun row =>
    { home := row.1.1, id := row.1.2, parent := row.2 : Meta }
  (modeParents metadata).mapVal fun _ value => (value.home, value.id)

/-- `mode_context`; it is none when the fuel is used up. -/
def modeContext (parents : Key → Option Key) (ancestryRequired : Bool) (fuel : Nat) (key : Key) :
    Option (List Key) :=
  if ancestryRequired then (chain parents fuel key).map List.reverse else some [key]

end Codexon.CatalogLineage
