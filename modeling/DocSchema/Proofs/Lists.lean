import Mathlib.Data.List.Forall2

set_option autoImplicit false

namespace DocSchema

theorem exists_of_mem_right {α β : Type} {related : α → β → Prop} {items : List α} {others : List β}
    (each : List.Forall₂ related items others) : ∀ b ∈ others, ∃ a ∈ items, related a b := by
  induction each with
  | nil => simp
  | @cons a b items others first rest ih =>
      intro c member
      rcases List.mem_cons.1 member with rfl | later
      · exact ⟨a, List.mem_cons_self, first⟩
      · obtain ⟨a', listed, further⟩ := ih c later
        exact ⟨a', List.mem_cons_of_mem a listed, further⟩

/-- What is in one of several lists belongs to the item that the list is related to. -/
theorem exists_of_mem_flatten {α β : Type} {related : α → List β → Prop} {items : List α}
    {gs : List (List β)} (each : List.Forall₂ related items gs) :
    ∀ b ∈ gs.flatten, ∃ a ∈ items, ∃ g, related a g ∧ b ∈ g := by
  intro b member
  obtain ⟨g, listed, inside⟩ := List.mem_flatten.1 member
  obtain ⟨a, item, holds⟩ := exists_of_mem_right each g listed
  exact ⟨a, item, g, holds, inside⟩

/-- The item that a filter leaves out may be erased instead. -/
theorem eraseIdx_eq_filter {α : Type} {items : List α} {p : α → Bool} {i : Nat}
    (inside : i < items.length)
    (out : p items[i] = false)
    (others : ∀ j (below : j < items.length), j ≠ i → p items[j] = true) :
    items.eraseIdx i = items.filter p := by
  induction items generalizing i with
  | nil => cases inside
  | cons a items ih =>
      cases i with
      | zero =>
          have rest : items.filter p = items := by
            apply List.filter_eq_self.2
            intro b listed
            obtain ⟨j, below, rfl⟩ := List.getElem_of_mem listed
            exact others (j + 1) (Nat.succ_lt_succ below) (Nat.succ_ne_zero j)
          rw [List.getElem_cons_zero] at out
          rw [List.eraseIdx_cons_zero, List.filter_cons, out, rest]
          rfl
      | succ i =>
          have first : p a = true := others 0 (Nat.zero_lt_succ _) (Nat.succ_ne_zero i).symm
          rw [List.eraseIdx_cons_succ, List.filter_cons, first, if_pos rfl]
          congr 1
          apply ih (Nat.lt_of_succ_lt_succ inside) out
          intro j below apart
          exact others (j + 1) (Nat.succ_lt_succ below) fun same => apart (Nat.succ.inj same)

section Related

variable {α β γ δ : Type} {related : α → β → Prop} {relates : γ → δ → Prop} {x : Option α}
  {y : Option β}

theorem eq_of_rel (items : Option.Rel related x y) :
    x = none ∧ y = none ∨ ∃ a b, x = some a ∧ y = some b ∧ related a b := by
  cases items with
  | none => exact .inl ⟨rfl, rfl⟩
  | some first => exact .inr ⟨_, _, rfl, rfl, first⟩

theorem rel_bind? {f : α → Option γ} {g : β → Option δ} (items : Option.Rel related x y)
    (each : ∀ a b, related a b → Option.Rel relates (f a) (g b)) :
    Option.Rel relates (x.bind f) (y.bind g) := by
  cases items with
  | none => exact .none
  | some first => exact each _ _ first

theorem rel_map? {f : α → γ} {g : β → δ} (items : Option.Rel related x y)
    (each : ∀ a b, related a b → relates (f a) (g b)) : Option.Rel relates (x.map f) (y.map g) := by
  cases items with
  | none => exact .none
  | some first => exact .some (each _ _ first)

/-- A search for what related items have in common finds related items. -/
theorem rel_find? {as : List α} {bs : List β} {p : α → Bool} {q : β → Bool}
    (items : List.Forall₂ related as bs) (same : ∀ a b, related a b → p a = q b) :
    Option.Rel related (as.find? p) (bs.find? q) := by
  induction items with
  | nil => exact .none
  | @cons a b as bs first rest ih =>
      rw [List.find?_cons, List.find?_cons, same a b first]
      cases q b with
      | true => exact .some first
      | false => exact ih

theorem findIdx?_congr {as : List α} {bs : List β} {p : α → Bool} {q : β → Bool}
    (items : List.Forall₂ related as bs) (same : ∀ a b, related a b → p a = q b) :
    as.findIdx? p = bs.findIdx? q := by
  induction items with
  | nil => rfl
  | @cons a b as bs first rest ih => rw [List.findIdx?_cons, List.findIdx?_cons, same a b first, ih]

theorem rel_getElem? {as : List α} {bs : List β} (items : List.Forall₂ related as bs) (i : Nat) :
    Option.Rel related as[i]? bs[i]? := by
  induction items generalizing i with
  | nil => exact .none
  | cons first rest ih =>
      cases i with
      | zero => exact .some first
      | succ i => exact ih i

theorem forall₂_getD {as : Option (List α)} {bs : Option (List β)}
    (items : Option.Rel (List.Forall₂ related) as bs) :
    List.Forall₂ related (as.getD []) (bs.getD []) := by
  cases items with
  | none => exact .nil
  | some each => exact each

theorem forall₂_mapIdx {as : List α} {bs : List β} {f : Nat → α → γ} {g : Nat → β → δ}
    (lengths : as.length = bs.length)
    (each : ∀ i (left : i < as.length) (right : i < bs.length), relates (f i as[i]) (g i bs[i])) :
    List.Forall₂ relates (as.mapIdx f) (bs.mapIdx g) := by
  refine List.forall₂_iff_get.2 ⟨by simp [lengths], fun i left right => ?_⟩
  rw [List.length_mapIdx] at left right
  simpa using each i left right

theorem forall₂_zip {as : List α} {bs : List β} {cs : List γ} {ds : List δ}
    (left : List.Forall₂ related as bs) (right : List.Forall₂ relates cs ds) :
    List.Forall₂ (fun p q => related p.1 q.1 ∧ relates p.2 q.2) (as.zip cs) (bs.zip ds) := by
  induction left generalizing cs ds with
  | nil => exact .nil
  | cons first rest ih =>
      cases right with
      | nil => exact .nil
      | cons first' rest' => exact .cons ⟨first, first'⟩ (ih rest')

theorem forall₂_through {ε : Type} {p : α → β → Prop} {q : β → ε → Prop} {r : α → ε → Prop}
    (through : ∀ a b c, p a b → q b c → r a c) {as : List α} {bs : List β} {cs : List ε}
    (first : List.Forall₂ p as bs) (second : List.Forall₂ q bs cs) : List.Forall₂ r as cs := by
  induction first generalizing cs with
  | nil =>
      cases second
      exact .nil
  | cons head rest ih =>
      cases second with
      | cons head' rest' => exact .cons (through _ _ _ head head') (ih rest')

/-- Items that show the same, and hold what is related. -/
theorem forall₂_of_map {ι ι' κ : Type} {own : ι → κ} {own' : ι' → κ} {below : ι → α}
    {below' : ι' → β} {as : List ι} {bs : List ι'} (same : as.map own = bs.map own')
    (held : List.Forall₂ related (as.map below) (bs.map below')) :
    List.Forall₂ (fun a b => own a = own' b ∧ related (below a) (below' b)) as bs := by
  rw [List.forall₂_map_left_iff, List.forall₂_map_right_iff] at held
  induction held with
  | nil => exact .nil
  | cons first rest ih =>
      obtain ⟨head, tail⟩ := List.cons.inj same
      exact .cons ⟨head, first⟩ (ih tail)

end Related

end DocSchema
