import DesignTree.Name.Table
/-!
# DesignTree.Name.Handle

Name tables that several clients use at once. A client holds a numbered handle; a table can have
many handles, and what is interned through one of them is seen through all.
-/

namespace DesignTree

/-- Name tables, and which of them each handle stands for. -/
structure NameTables where
  tables : Array NameTable
  handles : Array Nat

namespace NameTables

/-- No table and no handle. -/
def empty : NameTables := ⟨#[], #[]⟩

/-- Opens a fresh table; the result is its handle. -/
def create (all : NameTables) : Nat × NameTables :=
  (all.handles.size,
    { tables := all.tables.push .empty
      handles := all.handles.push all.tables.size })

/-- One more handle of the table behind a handle. -/
def share? (all : NameTables) (handle : Nat) : Option (Nat × NameTables) :=
  match all.handles[handle]? with
  | none => none
  | some table => some (all.handles.size, { all with handles := all.handles.push table })

/-- The table behind a handle. -/
def table? (all : NameTables) (handle : Nat) : Option NameTable :=
  match all.handles[handle]? with
  | none => none
  | some table => all.tables[table]?

/-- Puts a new state of the table behind a handle in place of the old one. -/
def update (all : NameTables) (handle : Nat) (state : NameTable) : NameTables :=
  match all.handles[handle]? with
  | none => all
  | some table => { all with tables := all.tables.setIfInBounds table state }

end NameTables

end DesignTree
