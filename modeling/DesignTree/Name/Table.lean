import DesignTree.Name.Basic
import Std.Data.HashMap.Basic
/-!
# DesignTree.Name.Table

The table that issues names. A text goes to the shard that its first bytes select, and gets the
next free slot there when it is first interned in either class; the two classes of one text
share the slot. A shard therefore keeps, beside the map from texts to slots, one entry per slot
with the text and the classes that were asked for.

A name is good for the table that issued it: `NameTable.resolve` gives its text back, and
refuses a tag whose slot is empty or whose class was never interned for that text.
-/

namespace DesignTree

/-- Why a name table refuses a request. -/
inductive NameError
  /-- The table never issued this name. -/
  | notFound (name : Name)
  /-- The shard holds `count` texts already and has no slot left. -/
  | shardOverflow (shard : ShardId) (count : Nat)
  deriving DecidableEq

namespace NameError

/-- The diagnostic for a refused request. -/
def message : NameError → String
  | notFound name => s!"name {name.text} is not known to this name table"
  | shardOverflow shard count =>
    s!"name table shard {shard.val} exceeded capacity: {count} names, max is {Name.maxSlot}"

end NameError

/-- What a slot holds: a text, and the classes it was interned in. -/
structure NameEntry where
  text : String
  insensitive : Bool
  sensitive : Bool
  deriving DecidableEq, Inhabited

namespace NameEntry

/-- Whether the text was interned in a class. -/
def holds (e : NameEntry) : CaseClass → Bool
  | .insensitive => e.insensitive
  | .sensitive => e.sensitive

/-- The entry after its text has been interned in one more class. -/
def withClass (e : NameEntry) : CaseClass → NameEntry
  | .insensitive => { e with insensitive := true }
  | .sensitive => { e with sensitive := true }

/-- The entry of a text interned for the first time. -/
def fresh (text : String) (cls : CaseClass) : NameEntry :=
  withClass { text, insensitive := false, sensitive := false } cls

end NameEntry

/-- One shard: the slot of each text, and the entry of each slot. -/
structure NameShard where
  slots : Std.HashMap String Slot
  entries : Array NameEntry

namespace NameShard

/-- A shard without texts. -/
def empty : NameShard := ⟨∅, #[]⟩

instance : Inhabited NameShard := ⟨empty⟩

/-- The slot of a text that was interned in the given class. -/
def find? (shard : NameShard) (text : String) (cls : CaseClass) : Option Slot :=
  match shard.slots[text]? with
  | none => none
  | some slot =>
    match shard.entries[slot.val]? with
    | none => none
    | some entry => if entry.holds cls then some slot else none

/-- The slot at which a text is or would be stored: the one it has, or else the next. A full
shard reports how many texts it holds. -/
def slotFor (shard : NameShard) (text : String) : Except Nat Slot :=
  match shard.slots[text]? with
  | some slot => .ok slot
  | none =>
    if room : shard.entries.size < slotCount then
      .ok ⟨shard.entries.size, room⟩
    else
      .error shard.entries.size

/-- Stores a text for a class at its slot. A text that is there already, for the other class,
only gets the class added. -/
def store : NameShard → String → CaseClass → Slot → NameShard
  | ⟨slots, entries⟩, text, cls, slot =>
    if slot.val < entries.size then
      { slots, entries := entries.modify slot.val (·.withClass cls) }
    else
      { slots := slots.insert text slot, entries := entries.push (.fresh text cls) }

end NameShard

/-- A table of names: the shards, and how many names they hold. -/
structure NameTable where
  shards : Vector NameShard shardCount
  size : Nat

namespace NameTable

/-- A fresh table. It holds one name, that of the empty text in the case-insensitive class, at
the first slot of the first shard. -/
def empty : NameTable :=
  let seeded : NameShard :=
    { slots := (∅ : Std.HashMap String Slot).insert "" Name.empty.slot
      entries := #[.fresh "" .insensitive] }
  { shards := (Vector.replicate shardCount NameShard.empty).set 0 seeded
    size := 1 }

instance : Inhabited NameTable := ⟨empty⟩

/-! ## Which shard a text goes to -/

/-- The bytes that select a text's shard: the first eight of its UTF-8 form. -/
def leadingBytes (text : String) : List UInt8 := text.toUTF8.toList.take 8

/-- The hash of the leading bytes, a polynomial in 31 computed in 32-bit words. -/
def leadingHash (bytes : List UInt8) : UInt32 :=
  bytes.foldl (fun hash byte => hash * 31 + byte.toUInt32) 0

/-- The shard in which a text is stored. -/
def home (text : String) : ShardId :=
  ⟨(leadingHash (leadingBytes text)).toNat % shardCount, Nat.mod_lt _ (by decide)⟩

/-! ## Operations -/

/-- One of the shards of a table. -/
def shard (table : NameTable) (id : ShardId) : NameShard := table.shards[id]

/-- Changes one of the shards. The shard is taken out first, so that it is changed in place. -/
def modifyShard (shards : Vector NameShard shardCount) (i : ShardId)
    (f : NameShard → NameShard) : Vector NameShard shardCount :=
  let shard := shards[i]
  let others := shards.set i .empty
  others.set i (f shard)

theorem getElem_modifyShard (shards : Vector NameShard shardCount) (i j : ShardId)
    (f : NameShard → NameShard) :
    (modifyShard shards i f)[j] = if i = j then f shards[i] else shards[j] := by
  by_cases h : i = j
  · subst h
    simp [modifyShard]
  · have hval : i.val ≠ j.val := fun e => h (Fin.ext e)
    simp [modifyShard, h, hval]

/-- Stores a text for a class in its shard, at a slot of that shard, as one more name. -/
def store : NameTable → String → CaseClass → Slot → NameTable
  | ⟨shards, size⟩, text, cls, slot =>
    { shards := modifyShard shards (home text) (·.store text cls slot), size := size + 1 }

/-- The name of a text in a class. A text that is new to the class counts as one more name; the
table stays as it is when the name exists, or when the text's shard is full. -/
def intern (table : NameTable) (text : String) (cls : CaseClass) :
    Except NameError (Name × NameTable) :=
  let shard := table.shard (home text)
  match shard.find? text cls with
  | some slot => .ok (⟨cls, home text, slot⟩, table)
  | none =>
    match shard.slotFor text with
    | .error count => .error (.shardOverflow (home text) count)
    | .ok slot => .ok (⟨cls, home text, slot⟩, table.store text cls slot)

/-- The name of a text in a class, if it was interned. -/
def get? (table : NameTable) (text : String) (cls : CaseClass) : Option Name :=
  match (table.shard (home text)).find? text cls with
  | none => none
  | some slot => some ⟨cls, home text, slot⟩

/-- The text of a name that this table issued. -/
def resolve (table : NameTable) (name : Name) : Except NameError String :=
  match (table.shard name.shard).entries[name.slot.val]? with
  | none => .error (.notFound name)
  | some entry => if entry.holds name.caseClass then .ok entry.text else .error (.notFound name)

/-- Whether the table holds no name beside that of the empty text. -/
def isEmpty (table : NameTable) : Bool := table.size ≤ 1

end NameTable

end DesignTree
