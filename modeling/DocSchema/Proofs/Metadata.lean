import DocSchema.Proofs.Views

set_option autoImplicit false

namespace DocSchema

/-- Whether two schemas differ in nothing but the metadata of their types and the naming options. -/
structure Schema.SameButMetadata (s t : Schema) : Prop where
  shapes : s.nodes.map (·.shape) = t.nodes.map (·.shape)
  root : s.root = t.root
  types : s.types = t.types

def Findings.withoutWarnings (f : Findings) : Findings :=
  { f with warnings := [] }

def Report.withoutWarnings (r : Report) : Report :=
  { r with warnings := [] }

def Findings.withoutWarningsView : Findings.View Findings where
  look := Findings.withoutWarnings
  join := (· ++ ·)
  look_append _ _ := rfl
  isEmpty_errors _ _ same := congrArg (·.errors.isEmpty) same
  selections _ _ same := congrArg (·.selections) same

/-- Without warnings, types of one shape are the same. -/
theorem withoutWarnings_overlooks :
    Findings.withoutWarningsView.congruence.Overlooks fun m n => m.shape = n.shape where
  shape m n same := same ▸ .refl m.shape
  literal m n same v w left right path := by
    obtain rfl : v = w := Shape.literal.inj (left.symm.trans (same.trans right))
    rfl
  deprecation isDeprecated isDeprecated' path := by cases isDeprecated <;> cases isDeprecated' <;>
    rfl
  accepts _ _ same := same.accepts

theorem Schema.SameButMetadata.corresponds {s t : Schema} (same : s.SameButMetadata t) :
    s.Corresponds (fun m n => m.shape = n.shape) t where
  size := by
    have sizes := congrArg Array.size same.shapes
    rwa [Array.size_map, Array.size_map] at sizes
  nodes id := by
    have shapes := congrArg (·[id]?) same.shapes
    simp only [Array.getElem?_map] at shapes
    rw [node?, node?]
    cases left : s.nodes[id]? <;> cases right : t.nodes[id]? <;> rw [left, right] at shapes
    case none.none => exact .none
    case some.some m n => exact .some (Option.some.inj shapes)
    all_goals cases shapes
  types := same.types
  references m n same name := by rw [same]

/-- What is said about types does not decide: validations with schemas that differ in nothing but
metadata and naming options fail alike, or report the same but for the warnings. -/
theorem validateNode_withoutWarnings (d : Document) (node : NodeId) (s t : Schema) (id : SchemaId)
    (settings : Settings) (same : s.SameButMetadata t) :
    (validateNode d node s id settings).map Report.withoutWarnings =
      (validateNode d node t id settings).map Report.withoutWarnings := by
  have reports (schema : Schema) :
      (validateNode d node schema id settings).map Report.withoutWarnings =
      ((findingsOf (d.valueAt node) schema id settings).map Findings.withoutWarnings).map fun f =>
        (({} : Ledger).add settings.maxErrors f).toReport := by
    rw [validateNode, validateValue_eq]
    cases findingsOf (d.valueAt node) schema id settings with
    | error e => rfl
    | ok f => simp [Except.map, toReport_add, Report.withoutWarnings, Findings.withoutWarnings]
  have findings := Findings.withoutWarningsView.findingsOf withoutWarnings_overlooks same.corresponds
    (d.valueAt node) id settings
  rw [reports, reports]
  exact congrArg _ findings

/-- Grades that are numbers or texts. What is said about the two kinds and about the grades is left
open. -/
private def grades (number text grade : Metadata) (naming : Naming) : Schema where
  nodes := #[⟨.array 1 {} false, {}⟩, ⟨.union [⟨"number", 2⟩, ⟨"text", 3⟩] .tagged, grade⟩,
    ⟨.reference "N", {}⟩, ⟨.text {} none none, text⟩, ⟨.integer {} none, number⟩]
  types := [("N", 4)]
  distinct := by decide
  naming := naming

/-- That numbers are deprecated neither keeps them from being tried nor counts as an error. One of
the two errors is left out either way, and only the warnings differ. -/
theorem validateNode_withoutWarnings_grades :
    let settings : Settings := { isLenient := true, maxDepth := 4, maxErrors := 1 }
    let d : Document := ⟨#[⟨.array [1, 2, 3, 4], []⟩, ⟨.primitive (.int 7), []⟩,
      ⟨.primitive .null, []⟩,
      ⟨.primitive (.bool true), []⟩, {}]⟩
    let s := grades {} {} {} {}
    let t := grades { isDeprecated := true } { description := some "in words" }
      { isDeprecated := true, examples := [⟨.primitive .null, []⟩] } { renameAll := some .camelCase }
    (validateNode d 0 s 0 settings).map Report.withoutWarnings =
        (validateNode d 0 t 0 settings).map Report.withoutWarnings ∧
      (validateNode d 0 s 0 settings).toOption.map (·.warnings) = some [] ∧
      (validateNode d 0 t 0 settings).toOption.map (·.warnings) =
        some [([.array (some 0)], .deprecated), ([.array (some 0)], .deprecated),
          ([.array (some 1)], .deprecated),
          ([.array (some 2)], .deprecated)] :=
  ⟨validateNode_withoutWarnings _ _ _ _ _ _ ⟨by simp [grades], rfl, rfl⟩,
    by decide +kernel, by decide +kernel⟩

end DocSchema
