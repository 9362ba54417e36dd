import DesignTree.Proofs.Parts
/-!
# DesignTree.Proofs.Ports

The header of an elaborated unit, entry by entry.

An entry becomes one port, wherever in a header it stands, and a port that it may repeat is all that
it takes from the entries before it (`getElem?_entryTrees`). The ports of a unit, nested or not, are
those of its header, and their nodes and slices are in the index (`ElaboratesTo.exists_unitTree`).
-/

namespace DesignTree

open NodeTree Layout

namespace Layout

variable (name : Nat → NodeId)

/-- The port of a header entry. -/
def entryTree (declared : List DeclaredPort) (previous : Option AnsiPort) (entry : HeaderEntry)
    (k : Nat) : NodeTree :=
  let slices := sliceTrees name declared previous entry (k + 1)
  { node :=
      { id := name k, span := entry.span
        content := .port { name := entry.name?, slices := slices.map NodeTree.id } }
    owned := slices }

theorem length_entryTrees (declared : List DeclaredPort) (previous : Option AnsiPort)
    (header : List HeaderEntry) (k : Nat) :
    (entryTrees name declared previous header k).length = header.length := by
  induction header generalizing previous k with
  | nil => rfl
  | cons entry rest ih => rw [entryTrees, List.length_cons, List.length_cons, ih]

theorem getElem?_entryTrees (declared : List DeclaredPort) (previous : Option AnsiPort)
    {header : List HeaderEntry} {i : Nat} {entry : HeaderEntry} (h : header[i]? = some entry)
    (k : Nat) :
    ∃ j, (entryTrees name declared previous header k)[i]? = some (entryTree name declared
      ((header.take i).foldl HeaderEntry.carried previous) entry j) := by
  induction header generalizing previous i k with
  | nil => simp at h
  | cons first rest ih =>
    cases i with
    | zero =>
      rw [List.getElem?_cons_zero] at h
      cases h
      exact ⟨k, rfl⟩
    | succ i => exact ih (first.carried previous) h (k + first.cost)

/-- The ports that the own items of a unit declare. -/
def ownDeclared (source : SourceUnit) (k : Nat) : List DeclaredPort :=
  declaredBy ((members name source.items (k + 1)).map node)

theorem length_ports (source : SourceUnit) (k : Nat) :
    (ports name source k).length = source.header.length :=
  length_entryTrees ..

theorem getElem?_ports {source : SourceUnit} {i : Nat} {entry : HeaderEntry}
    (h : source.header[i]? = some entry) (k : Nat) :
    ∃ j, (ports name source k)[i]? = some (entryTree name (ownDeclared name source k)
      ((source.header.take i).foldl HeaderEntry.carried none) entry j) :=
  getElem?_entryTrees name _ none h _

end Layout

namespace SourceUnit.ElaboratesTo

variable {source nested : SourceUnit} {u : ElaboratedUnit} {node : Node}

/-- The layout of what a unit becomes, among the trees of the whole. -/
theorem exists_unitTree (h : source.ElaboratesTo u)
    (becomes : u.Becomes source (.unit nested) node) :
    ∃ name k i, Function.Injective name ∧ LaidOut name source k u ∧
      unitTree name nested i ∈ subtreesOf [unitTree name source k] ∧
      nested.audit.fault = none ∧ (unitTree name nested i).node = node := by
  obtain ⟨name, k, hname, laid, sound⟩ := h.exists_laidOut
  obtain ⟨tree, htree, lays, rfl⟩ := laid.exists_lays sound becomes
  cases lays with
  | @unit _ i fine => exact ⟨name, k, i, hname, laid, htree, fine, rfl⟩

end SourceUnit.ElaboratesTo

end DesignTree
