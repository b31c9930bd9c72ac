import DocSchema.Text.Bytes

set_option autoImplicit false

namespace DocSchema

inductive RenameRule where
  | camelCase
  | snakeCase
  | kebabCase
  | pascalCase
  | lowerCase
  | upperCase
deriving DecidableEq

namespace RenameRule

def all : List RenameRule :=
  [.camelCase, .snakeCase, .kebabCase, .pascalCase, .lowerCase, .upperCase]

def name : RenameRule → Bytes
  | .camelCase => "camelCase"
  | .snakeCase => "snake_case"
  | .kebabCase => "kebab-case"
  | .pascalCase => "PascalCase"
  | .lowerCase => "lowercase"
  | .upperCase => "UPPERCASE"

def ofName? (s : Bytes) : Option RenameRule :=
  all.find? fun rule => rule.name == s

end RenameRule

structure Naming where
  rename : Option Bytes := none
  renameAll : Option RenameRule := none
deriving DecidableEq

def Naming.isEmpty (n : Naming) : Bool :=
  n.rename.isNone && n.renameAll.isNone

end DocSchema
