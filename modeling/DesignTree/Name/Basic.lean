import DesignTree.Order
/-!
# DesignTree.Name.Basic

Interned identifiers. A `Name` stands for the text of an identifier together with its
case-sensitivity class; equal names have equal text and class, so later layers compare names
and never texts.

A name says where its text is stored: in one of sixteen shards, at a slot of that shard, and
for which of the two classes. The three parts fill one 32-bit tag exactly — one bit for the
class, four for the shard, twenty-seven for the slot — so `Name.raw` and `Name.ofRaw` are
inverse to each other, and every word is the tag of some name, whether or not a table ever
issued it.
-/

namespace DesignTree

/-- How an identifier compares: ordinary identifiers of a case-insensitive language share one
class, extended identifiers have the other. The same text in the two classes is two names. -/
inductive CaseClass
  | insensitive
  | sensitive
  deriving DecidableEq, Inhabited

namespace CaseClass

/-- The class as the top bit of a tag. -/
def bit : CaseClass → Nat
  | insensitive => 0
  | sensitive => 1

/-- The class of a top bit. -/
def ofBit (b : Nat) : CaseClass := if b = 0 then insensitive else sensitive

/-- The class selected by a flag that is true for the case-sensitive one. -/
def ofSensitive (isSensitive : Bool) : CaseClass := if isSensitive then sensitive else insensitive

theorem bit_lt_two (c : CaseClass) : c.bit < 2 := by cases c <;> decide

@[simp] theorem ofBit_bit (c : CaseClass) : ofBit c.bit = c := by cases c <;> rfl

theorem bit_ofBit {b : Nat} (h : b < 2) : (ofBit b).bit = b := by
  obtain rfl | rfl : b = 0 ∨ b = 1 := by omega
  · rfl
  · rfl

end CaseClass

/-- How many shards a name table has. -/
abbrev shardCount : Nat := 16

/-- How many slots a shard can have: as many as twenty-seven bits number. -/
abbrev slotCount : Nat := 134217728

/-- One of the shards of a name table. -/
abbrev ShardId := Fin shardCount

/-- A position in a shard. -/
abbrev Slot := Fin slotCount

/-- An interned identifier: where its text is stored, and the class it was interned in. -/
structure Name where
  caseClass : CaseClass
  shard : ShardId
  slot : Slot
  deriving DecidableEq

namespace Name

/-- The name of the empty text, which every table holds from the start. -/
def empty : Name := ⟨.insensitive, 0, 0⟩

instance : Inhabited Name := ⟨empty⟩

/-- The largest slot number, which also bounds the texts of a shard. -/
def maxSlot : Nat := slotCount - 1

/-- Whether the name was interned in the case-sensitive class. -/
def isCaseSensitive (n : Name) : Bool := n.caseClass == .sensitive

/-! ## The 32-bit tag -/

/-- The tag as a number: class, shard and slot from the top bit down. -/
def code (n : Name) : Nat :=
  n.caseClass.bit * 2147483648 + n.shard.val * 134217728 + n.slot.val

theorem code_lt (n : Name) : n.code < UInt32.size := by
  have hc := n.caseClass.bit_lt_two
  have hs := n.shard.isLt
  have hl := n.slot.isLt
  simp only [shardCount, slotCount] at hs hl
  simp only [code, UInt32.size]
  omega

/-- The 32-bit tag of a name. -/
def raw (n : Name) : UInt32 := UInt32.ofNat n.code

/-- The name whose tag a word is. -/
def ofRaw (tag : UInt32) : Name :=
  { caseClass := .ofBit (tag.toNat / 2147483648)
    shard := ⟨tag.toNat / 134217728 % shardCount, Nat.mod_lt _ (by decide)⟩
    slot := ⟨tag.toNat % slotCount, Nat.mod_lt _ (by decide)⟩ }

@[simp] theorem toNat_raw (n : Name) : n.raw.toNat = n.code :=
  UInt32.toNat_ofNat_of_lt' n.code_lt

@[simp] theorem ofRaw_raw (n : Name) : ofRaw n.raw = n := by
  obtain ⟨c, ⟨s, hs⟩, ⟨l, hl⟩⟩ := n
  have hc := c.bit_lt_two
  have h1 : (c.bit * 2147483648 + s * 134217728 + l) / 2147483648 = c.bit := by
    simp only [shardCount, slotCount] at hs hl; omega
  have h2 : (c.bit * 2147483648 + s * 134217728 + l) / 134217728 % 16 = s := by
    simp only [shardCount, slotCount] at hs hl; omega
  have h3 : (c.bit * 2147483648 + s * 134217728 + l) % 134217728 = l := by
    simp only [shardCount, slotCount] at hs hl; omega
  simp only [ofRaw, toNat_raw, code, h1, h2, h3, CaseClass.ofBit_bit]

@[simp] theorem raw_ofRaw (tag : UInt32) : (ofRaw tag).raw = tag := by
  apply UInt32.toNat_inj.mp
  have ht : tag.toNat < 4294967296 := tag.toNat_lt
  have hb : tag.toNat / 2147483648 < 2 := by omega
  rw [toNat_raw]
  simp only [ofRaw, code, CaseClass.bit_ofBit hb, shardCount, slotCount]
  omega

theorem raw_injective {a b : Name} (h : a.raw = b.raw) : a = b := by
  rw [← ofRaw_raw a, ← ofRaw_raw b, h]

/-! ## Order -/

/-- Names are ordered by their tags. -/
instance : Ord Name := ⟨compareOn raw⟩

instance : Std.TransOrd Name := inferInstanceAs (Std.TransCmp (compareOn raw))

instance : Std.LawfulEqOrd Name :=
  lawfulEqCmp_compareOn fun _ _ h => raw_injective h

/-! ## Text -/

/-- The form in which diagnostics show a name they cannot resolve. -/
def text (n : Name) : String :=
  let suffix := if n.isCaseSensitive then ", cs" else ""
  s!"Name(shard={n.shard.val}, local={n.slot.val}{suffix})"

end Name

end DesignTree
