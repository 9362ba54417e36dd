import Std.Data.ExtTreeMap.Basic
/-!
# DesignTree.Order

Orders by a key. Node ids and names are ordered by the number each of them stands for, and
sorted maps over them are maps in the mathematical sense only if that order tells different
keys apart; for an injective key it does.
-/

namespace DesignTree

/-- Comparing by an injective key identifies only what is equal. -/
theorem lawfulEqCmp_compareOn {α β : Type} [Ord β] [Std.LawfulEqOrd β] {key : α → β}
    (injective : ∀ a b, key a = key b → a = b) : Std.LawfulEqCmp (compareOn key) where
  compare_self := Std.ReflOrd.compare_self
  eq_of_compare h := injective _ _ (Std.LawfulEqOrd.eq_of_compare h)

end DesignTree
