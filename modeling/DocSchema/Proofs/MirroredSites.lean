import DocSchema.Proofs.Parts
import DocSchema.Proofs.Reordered

set_option autoImplicit false

namespace DocSchema

/-- Whether a value at a position under one root and a value at a position under another one are
reached by the same labels. -/
inductive Meets (root root' : Value) : List Nat → Value → List Nat → Value → Prop
  | roots : Meets root root' [] root [] root'
  | part {p q : List Nat} {v w a b : Value} {i j : Nat} {label : Key ⊕ Nat}
      (wholes : Meets root root' p v q w) (equal : v.Reorders w)
      (left : v.content.labelled[i]? = some (label, a))
      (right : w.content.labelled[j]? = some (label, b)) :
      Meets root root' (p ++ [i]) a (q ++ [j]) b

namespace Meets

variable {root root' : Value} {p q p' q' : List Nat} {v w v' w' : Value}

theorem symm (meets : Meets root root' p v q w) : Meets root' root q w p v := by
  induction meets with
  | roots => exact .roots
  | part wholes equal left right ih => exact ih.part equal.symm right left

/-- What meets the value at a position is one value, at one position. -/
theorem unique (meets : Meets root root' p v q w) (again : Meets root root' p' v' q' w')
    (same : p = p') : v = v' ∧ q = q' ∧ w = w' := by
  induction meets generalizing p' q' v' w' with
  | roots =>
      cases again with
      | roots => exact ⟨rfl, rfl, rfl⟩
      | part => exact absurd same.symm (List.append_ne_nil_of_right_ne_nil _ (List.cons_ne_nil _ _))
  | @part p q v w a b i j label wholes equal left right ih =>
      cases again with
      | roots => exact absurd same (List.append_ne_nil_of_right_ne_nil _ (List.cons_ne_nil _ _))
      | @part p' q' v' w' a' b' i' j' label' wholes' equal' left' right' =>
          obtain ⟨above, last⟩ := List.append_inj' same rfl
          obtain ⟨rfl, rfl, rfl⟩ := ih wholes' above
          obtain rfl := List.singleton_inj.1 last
          obtain ⟨rfl, rfl⟩ := Prod.mk.inj (Option.some.inj (left.symm.trans left'))
          obtain rfl := Content.index_of_label equal.right.entries right right'
          obtain ⟨-, rfl⟩ := Prod.mk.inj (Option.some.inj (right.symm.trans right'))
          exact ⟨rfl, rfl, rfl⟩

theorem position_iff (meets : Meets root root' p v q w) (again : Meets root root' p' v' q' w') :
    p = p' ↔ q = q' :=
  ⟨fun same => (meets.unique again same).2.1, fun same => (meets.symm.unique again.symm same).2.1⟩

end Meets

/-- Whether two sites have one path and hold equal values under the same labels. -/
structure Site.Mirrors (root root' : Value) (s t : Site) : Prop where
  path : t.path = s.path
  meets : Meets root root' s.position s.value t.position t.value
  equal : s.value.Reorders t.value

structure EntryMirrors (root root' : Value) (e f : Key × Site) : Prop where
  key : f.1 = e.1
  site : e.2.Mirrors root root' f.2

namespace Site.Mirrors

variable {root root' : Value} {s t : Site} (mirrors : s.Mirrors root root' t)

include mirrors

theorem isHole : t.value.content.isHole = s.value.content.isHole :=
  (Value.isHole_same mirrors.equal.same).symm

theorem text? : t.value.text? = s.value.text? :=
  (Value.text?_same mirrors.equal.same).symm

/-- Equal primitive values are the same, but for zeros of different signs. -/
theorem primitive? : t.value.content.primitive? = s.value.content.primitive? ∨
    ∃ x y, s.value.content.primitive? = some (.float x) ∧
      t.value.content.primitive? = some (.float y) ∧
      x.same y = true := by
  rcases eq_of_rel (Value.primitive?_same mirrors.equal.same) with
    ⟨left, right⟩ | ⟨p, q, left, right, same⟩
  · exact .inl (right.trans left.symm)
  · rcases Primitive.same_cases same with rfl | ⟨x, y, rfl, rfl, floats⟩
    · exact .inl (right.trans left.symm)
    · exact .inr ⟨x, y, left, right, floats⟩

theorem part {i j : Nat} {a b : Value} (step : Segment) (label : Key ⊕ Nat)
    (left : s.value.content.labelled[i]? = some (label, a))
    (right : t.value.content.labelled[j]? = some (label, b)) :
    (s.part i step a).Mirrors root root' (t.part j step b) where
  path := by rw [Site.part, Site.part, mirrors.path]
  meets := .part mirrors.meets mirrors.equal left right
  equal := mirrors.equal.part left right

/-- Equal maps have the same entries, maybe in another order. -/
theorem entries? : Option.Rel (Reordered (EntryMirrors root root')) s.entries? t.entries? := by
  have contents := (Value.same_iff.1 mirrors.equal.same).1
  unfold Site.entries?
  cases content : s.value.content <;> cases content' : t.value.content <;>
    rw [content, content'] at contents <;> try cases contents
  case map es fs =>
    have keys := sameItems_keys (mirrors.equal.left.entries es content) contents
    refine .some (.imp_of_mem (.of_perm (f := (·.1)) (g := (·.1)) ?_) ?_)
    · convert keys using 1 <;> apply List.ext_getElem <;> simp
    · intro e listed f listed' key
      obtain ⟨i, inside, rfl⟩ := List.mem_mapIdx.1 listed
      obtain ⟨j, inside', rfl⟩ := List.mem_mapIdx.1 listed'
      have key : fs[j].1 = es[i].1 := key.symm
      refine ⟨key, ?_⟩
      dsimp only
      rw [key]
      refine mirrors.part _ (.inl es[i].1) ?_ ?_
      · simp [content, Content.labelled, inside]
      · simp [content', Content.labelled, inside', key]
  all_goals exact .none

theorem array? : Option.Rel (List.Forall₂ (Site.Mirrors root root')) s.array? t.array? := by
  have contents := (Value.same_iff.1 mirrors.equal.same).1
  unfold Site.array?
  cases content : s.value.content <;> cases content' : t.value.content <;>
    rw [content, content'] at contents <;> try cases contents
  case array as bs =>
    refine .some (forall₂_mapIdx (sameList_iff.1 contents).length_eq fun i inside inside' => ?_)
    refine mirrors.part _ (.inr i) ?_ ?_
    · simp [content, Content.labelled, inside]
    · simp [content', Content.labelled, inside']
  all_goals exact .none

theorem tuple? : Option.Rel (List.Forall₂ (Site.Mirrors root root')) s.tuple? t.tuple? := by
  have contents := (Value.same_iff.1 mirrors.equal.same).1
  unfold Site.tuple?
  cases content : s.value.content <;> cases content' : t.value.content <;>
    rw [content, content'] at contents <;> try cases contents
  case tuple as bs =>
    refine .some (forall₂_mapIdx (sameList_iff.1 contents).length_eq fun i inside inside' => ?_)
    refine mirrors.part _ (.inr i) ?_ ?_
    · simp [content, Content.labelled, inside]
    · simp [content', Content.labelled, inside']
  all_goals exact .none

/-- Of the entries of a map only one is spelled like a name. -/
theorem spelled_unique (name : Bytes) : ∀ e ∈ t.entries?.getD [], ∀ f ∈ t.entries?.getD [],
    e.1.spelling? = some name → f.1.spelling? = some name → e = f := by
  unfold Site.entries?
  cases content : t.value.content with
  | map entries =>
      intro e listed f listed' spelled spelled'
      obtain ⟨i, inside, rfl⟩ := List.mem_mapIdx.1 listed
      obtain ⟨j, inside', rfl⟩ := List.mem_mapIdx.1 listed'
      obtain rfl := mirrors.equal.rightApart.unique content inside inside' spelled spelled'
      rfl
  | _ => exact fun e listed => absurd listed List.not_mem_nil

theorem field? (name : Bytes) :
    Option.Rel (Site.Mirrors root root') (s.field? name) (t.field? name) := by
  unfold Site.field?
  suffices found : Option.Rel (EntryMirrors root root')
      (s.entries?.bind fun es => es.find? fun e => e.1.spelling? == some name)
      (t.entries?.bind fun fs => fs.find? fun f => f.1.spelling? == some name) from
    rel_map? found fun e f same => ⟨by rw [mirrors.path], same.site.meets, same.site.equal⟩
  rcases eq_of_rel mirrors.entries? with ⟨left, right⟩ | ⟨es, fs, left, right, entries⟩
  · rw [left, right]
    exact .none
  · rw [left, right]
    have unique := mirrors.spelled_unique name
    rw [right, Option.getD_some] at unique
    refine entries.find? (fun e f same => by rw [same.key])
      fun e listed f listed' spelled spelled' => ?_
    exact unique e listed f listed' (by simpa using spelled) (by simpa using spelled')

end Site.Mirrors

end DocSchema
