import Mathlib.Data.List.Induction
import DocSchema.Document

set_option autoImplicit false

namespace DocSchema.Document

variable {d e : Document} {path : Path} {s : Segment} {n m : NodeId}

@[simp] theorem resolve_nil : d.resolve [] n = .ok n := rfl

theorem follow_concat (visited : Path) :
    d.follow visited n (path ++ [s]) =
      match d.follow visited n path with
      | .ok k =>
        match (d.node k).step? s with
        | some next => .ok next
        | none => .error ⟨.pathNotFound, visited ++ path ++ [s]⟩
      | .error e => .error e := by
  induction path generalizing visited n with
  | nil => rw [List.append_nil]; rfl
  | cons t rest ih =>
      rw [List.cons_append, follow, follow]
      cases step : (d.node n).step? t with
      | none => rfl
      | some next =>
          simp only [ih]
          simp

/-- A path leads as far as its last step does. -/
theorem resolve_concat :
    d.resolve (path ++ [s]) n = .ok m ↔
    ∃ k, d.resolve path n = .ok k ∧ (d.node k).step? s = some m := by
  rw [resolve, resolve, follow_concat]
  cases d.follow [] n path with
  | error e => simp
  | ok k =>
      cases step : (d.node k).step? s with
      | none => simp [step]
      | some next => simp [step]

/-- The failure of a path whose last step leads nowhere names the whole path. -/
theorem resolve_concat_error {k : NodeId} (reaches : d.resolve path n = .ok k)
    (nowhere : (d.node k).step? s = none) :
    d.resolve (path ++ [s]) n = .error ⟨.pathNotFound, path ++ [s]⟩ := by
  rw [resolve] at reaches ⊢
  rw [follow_concat, reaches]
  simp [nowhere]

/-- Paths lead where they did if all steps do. -/
theorem resolve_mono
    (kept : ∀ k s next, (d.node k).step? s = some next → (e.node k).step? s = some next)
    (reaches : d.resolve path n = .ok m) : e.resolve path n = .ok m := by
  induction path using List.reverseRecOn generalizing m with
  | nil => exact reaches
  | append_singleton path s ih =>
      obtain ⟨k, before, step⟩ := resolve_concat.1 reaches
      exact resolve_concat.2 ⟨k, ih before, kept k s m step⟩

end DocSchema.Document
