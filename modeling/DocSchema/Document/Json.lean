import DocSchema.Document.Rebuild
import DocSchema.Value.Json

set_option autoImplicit false

namespace DocSchema

namespace Document

def toJson (d : Document) : Json :=
  d.value.toJson

def ofJson (j : Json) : Except PathError Document :=
  Document.ofValue (Value.ofJson j)

end Document

end DocSchema
