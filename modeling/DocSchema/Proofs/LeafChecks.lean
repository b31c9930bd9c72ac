import DocSchema.Proofs.Decides

set_option autoImplicit false

namespace DocSchema

namespace Decides

variable {schema : Schema} {path : Path}

theorem language {expected : Option Bytes} {t : Text} :
    Decides schema (Check.language expected t path)
      (∀ language ∈ expected, ∀ found ∈ t.language.name?, found = language) := by
  unfold Check.language
  cases expected with
  | none => exact pure.congr (by simp)
  | some expected =>
      cases t.language.name? with
      | none => exact pure.congr (by simp)
      | some found => exact expect.congr (by simp)

theorem pattern {p : Option Bytes} {t : Text}
    (compiles : ∀ text ∈ p, ∃ compiled, Pattern.compile? text = some compiled) :
    Decides schema (Check.pattern p t path)
      (∀ text ∈ p, ∃ compiled, Pattern.compile? text = some compiled ∧
        compiled.isFoundIn t.content = true) := by
  cases p with
  | none => exact pure.congr (by simp)
  | some text =>
      obtain ⟨compiled, found⟩ := compiles text rfl
      unfold Check.pattern
      simp only [found]
      exact expect.congr (by simp [found])

theorem text {length : Counts} {p lang : Option Bytes} {t : Text}
    (compiles : ∀ text ∈ p, ∃ compiled, Pattern.compile? text = some compiled) :
    Decides schema (Check.text length p lang t path) (AdmitsText length p lang t) :=
  language.both (expect.both (pattern compiles))

theorem integer {range : Range} {multipleOf : Option Int64} {i : Int64} :
    Decides schema (Check.integer range multipleOf i path) (AdmitsInteger range multipleOf i) := by
  apply expect.both
  cases multipleOf with
  | none => exact pure.congr (by simp)
  | some m => exact expect.congr (by simp)

theorem float {range : Range} {multipleOf : Option Number} {x : Binary64} :
    Decides schema (Check.float range multipleOf x path) (AdmitsFloat range multipleOf x) := by
  apply expect.both
  cases multipleOf with
  | none => exact pure.congr (by simp)
  | some m => exact expect.congr (by simp)

theorem keyShape {key : Literal} {shape : Shape SchemaId} (compiles : shape.Compiles) :
    Decides schema (Check.keyShape key path shape) (shape.AdmitsKey key) := by
  unfold Check.keyShape Shape.AdmitsKey
  cases shape with
  | any => exact pure
  | text length p language =>
      cases key with
      | text s => exact text fun p' same => compiles length p' language (by rw [same])
      | _ => exact report
  | integer range multipleOf =>
      cases key with
      | int i => exact integer
      | _ => exact report
  | boolean =>
      cases key with
      | bool b => exact pure
      | _ => exact report
  | literal expected => exact expect
  | _ => exact report

theorem key {id : SchemaId} {k : Key} (sound : schema.IsSound)
    (inside : schema.contains id = true) :
    Decides schema (Check.key schema id k path)
      (∃ node, schema.Resolves id node ∧ node.shape.AdmitsKey k.value) := by
  obtain ⟨node, resolved⟩ := sound.resolves id inside
  refine congr (follow resolved fun target => ?_) resolved.exists_iff.symm
  exact keyShape (sound.pattern resolved)

end Decides

end DocSchema
