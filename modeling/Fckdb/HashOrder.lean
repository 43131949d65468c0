import Fckdb.Live

/-! # The order of a hash map

A hash map is iterated in no particular order. The order is a parameter: some enumeration of the
documents of each live set. -/

namespace Fckdb

/-- The order in which `HashMap::values` goes through a live set. -/
class HashOrder where
  values : Live → List Doc
  values_perm : ∀ live, (values live).Perm live.values

/-- The order of the ids, as one possible order. -/
def HashOrder.sorted : HashOrder where
  values live := live.values
  values_perm live := List.Perm.refl live.values

/-- `live.values()`. -/
def Live.hashValues [HashOrder] (live : Live) : List Doc := HashOrder.values live

theorem Live.hashValues_perm [HashOrder] (live : Live) : live.hashValues.Perm live.values :=
  HashOrder.values_perm live

end Fckdb
