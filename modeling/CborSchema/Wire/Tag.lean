import CborSchema.Wire.Head

/-!
# Tags

The tags that the library itself gives a meaning.

* `Tag.embedded` is in front of a byte string that holds an item, `Tag.finiteSet` in front of a
  list that stands for a set;
* `Tag.ofIndex?` is the short tag of a constructor index and `Tag.index?` reads it back;
* `Tag.general` announces an index of any size in front of the fields.
-/

namespace CborSchema.Tag

/-- The tag of a byte string that holds an encoded item. -/
def embedded : UInt64 := 24

/-- The tag of a list that stands for a set. -/
def finiteSet : UInt64 := 258

/-- The tag of a constructor that spells its index out. -/
def general : UInt64 := 102

/-- The short tag of a constructor index: 121 to 127 for the first seven, 1280 to 1400 for the
    next, none beyond. -/
def ofIndex? (index : UInt64) : Option UInt64 :=
  if index ≤ 6 then some (121 + index)
  else if index ≤ 127 then some (1280 + (index - 7))
  else none

/-- The constructor index of a short tag. -/
def index? (tag : UInt64) : Option UInt64 :=
  if 121 ≤ tag && tag ≤ 127 then some (tag - 121)
  else if 1280 ≤ tag && tag ≤ 1400 then some (tag - 1280 + 7)
  else none

end CborSchema.Tag
