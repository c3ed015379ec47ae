/-!
# Policies

The rules are fixed; what a **policy** settles is which type names stand for values that are
copied, which for containers that can be indexed, and how many functions may be checked at a time.
-/

namespace BorrowCheck

/-- What is settled for a check. -/
structure Policy where
  /-- The names of the types whose values are copied rather than moved. -/
  copyTypes : List String :=
    ["Bool", "Float", "Int", "Uint", "bool", "char", "f32", "f64", "i128", "i16", "i32", "i64",
      "i8", "isize", "u128", "u16", "u32", "u64", "u8", "usize"]
  /-- The names of the types whose elements can be reached by an index. -/
  containerTypes : List String := ["Array", "Box", "Vec", "VecDeque"]
  /-- How many functions may be checked at a time, which never changes an answer. -/
  workers : Nat := 1
  one_le_workers : 1 ≤ workers := by decide

namespace Policy

/-- Whether values of the type with this name are copied. -/
def copies (c : Policy) (name : String) : Bool :=
  c.copyTypes.contains name

/-- Whether the type with this name is a container. -/
def indexes (c : Policy) (name : String) : Bool :=
  c.containerTypes.contains name

end Policy

end BorrowCheck
