import DocSchema.Text.Bytes

set_option autoImplicit false

namespace DocSchema

abbrev Dictionary (α : Type) := List (Bytes × α)

namespace Dictionary

variable {α : Type}

/-- Puts an item in its place, over an earlier one of the same key. -/
def insert (key : Bytes) (a : α) : Dictionary α → Dictionary α
  | [] => [(key, a)]
  | (k, b) :: rest =>
    if key = k then (key, a) :: rest
    else if key < k then (key, a) :: (k, b) :: rest
    else (k, b) :: insert key a rest

/-- The dictionary of some items, the last one of each key. -/
def ofList (items : List (Bytes × α)) : Dictionary α :=
  items.foldl (fun d item => insert item.1 item.2 d) []

def erase (key : Bytes) (d : Dictionary α) : Dictionary α :=
  d.filter fun item => item.1 != key

end Dictionary

end DocSchema
