import DocSchema.Value

set_option autoImplicit false

namespace DocSchema

variable {α κ : Type}

/-- Whether the lists have one length and are related position by position. -/
def sameList (same : α → α → Bool) (as bs : List α) : Bool :=
  as.length == bs.length && (as.zip bs).all fun (a, b) => same a b

/-- Whether the lists have one length and every item of the first has its match in the second: the
first item there of the same key, which `same` compares with it. -/
def sameItems [DecidableEq κ] (same : α → α → Bool) (as bs : List (κ × α)) : Bool :=
  as.length == bs.length && as.all fun (k, a) => (lookup? k bs).any fun b => same b a

def Content.sameBy (same : α → α → Bool) : Content α → Content α → Bool
  | .hole, .hole => true
  | .primitive p, .primitive q => p.same q
  | .map es, .map fs => sameItems same es fs
  | .array as, .array bs => sameList same as bs
  | .tuple as, .tuple bs => sameList same as bs
  | _, _ => false

namespace Value

def sameTo : (depth : Nat) → Value → Value → Bool
  | 0, _, _ => true
  | depth + 1, v, w =>
    v.content.sameBy (sameTo depth) w.content && sameItems (sameTo depth) v.extensions w.extensions

/-- Equality of values; no value has more levels than nodes. -/
def same (v w : Value) : Bool :=
  sameTo (v.size + w.size) v w

theorem all_congr_of_mem {as : List α} {p q : α → Bool} (h : ∀ a ∈ as, p a = q a) :
    as.all p = as.all q := by
  induction as with
  | nil => rfl
  | cons a as ih =>
    rw [List.all_cons, List.all_cons, h a List.mem_cons_self,
      ih fun b hb => h b (List.mem_cons_of_mem a hb)]

theorem sameList_congr {r s : α → α → Bool} {as bs : List α}
    (h : ∀ a ∈ as, ∀ b ∈ bs, r a b = s a b) : sameList r as bs = sameList s as bs := by
  unfold sameList
  congr 1
  exact all_congr_of_mem fun (a, b) hm => h a (List.of_mem_zip hm).1 b (List.of_mem_zip hm).2

theorem sameItems_congr [DecidableEq κ] {r s : α → α → Bool} {as bs : List (κ × α)}
    (h : ∀ a ∈ as.map (·.2), ∀ b ∈ bs.map (·.2), r b a = s b a) :
    sameItems r as bs = sameItems s as bs := by
  unfold sameItems
  congr 1
  refine all_congr_of_mem fun (k, a) hm => ?_
  dsimp only
  cases hb : lookup? k bs with
  | none => rfl
  | some b =>
    exact h a (List.mem_map_of_mem (f := (·.2)) hm) b
      (List.mem_map_of_mem (f := (·.2)) (mem_of_lookup? hb))

theorem sameBy_congr {r s : α → α → Bool} {c d : Content α}
    (h : ∀ a ∈ c.parts, ∀ b ∈ d.parts, r a b = s a b ∧ r b a = s b a) :
    c.sameBy r d = c.sameBy s d := by
  cases c <;> cases d <;> try rfl
  · exact sameItems_congr fun a ha b hb => (h a ha b hb).2
  · exact sameList_congr fun a ha b hb => (h a ha b hb).1
  · exact sameList_congr fun a ha b hb => (h a ha b hb).1

/-- More levels than nodes change nothing. -/
theorem sameTo_eq_sameTo {d e : Nat} {v w : Value} (hd : v.size + w.size ≤ d)
    (he : v.size + w.size ≤ e) : sameTo d v w = sameTo e v w := by
  induction d generalizing e v w with
  | zero =>
    have := v.size_pos
    omega
  | succ d ih =>
    cases e with
    | zero =>
      have := v.size_pos
      omega
    | succ e =>
      have hp : ∀ a ∈ v.root.parts, ∀ b ∈ w.root.parts,
          sameTo d a b = sameTo e a b ∧ sameTo d b a = sameTo e b a := by
        intro a ha b hb
        have := size_lt_of_mem_parts ha
        have := size_lt_of_mem_parts hb
        exact ⟨ih (by omega) (by omega), ih (by omega) (by omega)⟩
      unfold sameTo
      congr 1
      · exact sameBy_congr fun a ha b hb =>
          hp a (List.mem_append_left _ ha) b (List.mem_append_left _ hb)
      · exact sameItems_congr fun a ha b hb =>
          (hp a (List.mem_append_right _ ha) b (List.mem_append_right _ hb)).2

/-- Values are equal if their contents are and their extensions match. -/
theorem same_eq (v w : Value) :
    v.same w = (v.content.sameBy same w.content && sameItems same v.extensions w.extensions) := by
  have hs : v.same w = sameTo (v.size + w.size + 1) v w :=
    sameTo_eq_sameTo (by omega) (by omega)
  rw [hs]
  have hp : ∀ a ∈ v.root.parts, ∀ b ∈ w.root.parts,
      sameTo (v.size + w.size) a b = same a b ∧ sameTo (v.size + w.size) b a = same b a := by
    intro a ha b hb
    have := size_lt_of_mem_parts ha
    have := size_lt_of_mem_parts hb
    exact ⟨sameTo_eq_sameTo (by omega) (by omega), sameTo_eq_sameTo (by omega) (by omega)⟩
  rw [sameTo]
  congr 1
  · exact sameBy_congr fun a ha b hb =>
      hp a (List.mem_append_left _ ha) b (List.mem_append_left _ hb)
  · exact sameItems_congr fun a ha b hb =>
      (hp a (List.mem_append_right _ ha) b (List.mem_append_right _ hb)).2

end Value

end DocSchema
