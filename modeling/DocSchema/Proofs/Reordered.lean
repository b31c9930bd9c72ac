import Mathlib.Data.List.Perm.Basic
import DocSchema.Proofs.Lists
import DocSchema.Proofs.SameValue

set_option autoImplicit false

namespace DocSchema

/-- Whether lists are related item by item once the second one is put in another order. -/
def Reordered {α β : Type} (related : α → β → Prop) (as : List α) (bs : List β) : Prop :=
  ∃ cs, List.Forall₂ related as cs ∧ cs.Perm bs

namespace Reordered

variable {α β γ δ κ : Type} {related : α → β → Prop} {relates : γ → δ → Prop} {as : List α}
  {bs : List β}

theorem of_forall₂ (each : List.Forall₂ related as bs) : Reordered related as bs :=
  ⟨bs, each, .refl bs⟩

/-- Lists of the same keys, in whatever order, are related by their keys. -/
theorem of_perm {f : α → κ} {g : β → κ} (keys : (as.map f).Perm (bs.map g)) :
    Reordered (fun a b => f a = g b) as bs := by
  have itself : List.Forall₂ (fun k b => k = g b) (bs.map g) bs :=
    List.forall₂_map_left_iff.2 (List.forall₂_same.2 fun _ _ => rfl)
  obtain ⟨cs, each, perm⟩ := List.perm_comp_forall₂ keys itself
  exact ⟨cs, List.forall₂_map_left_iff.1 each, perm⟩

theorem imp_of_mem {further : α → β → Prop} (items : Reordered related as bs)
    (each : ∀ a ∈ as, ∀ b ∈ bs, related a b → further a b) : Reordered further as bs := by
  obtain ⟨cs, pairs, perm⟩ := items
  refine ⟨cs, List.forall₂_iff_zip.2 ⟨pairs.length_eq, fun {a b} member => ?_⟩, perm⟩
  obtain ⟨left, right⟩ := List.of_mem_zip member
  exact each a left b (perm.mem_iff.1 right) ((List.forall₂_iff_zip.1 pairs).2 member)

theorem length_eq (items : Reordered related as bs) : as.length = bs.length := by
  obtain ⟨cs, pairs, perm⟩ := items
  exact pairs.length_eq.trans perm.length_eq

theorem map {f : α → γ} {g : β → δ} (items : Reordered related as bs)
    (each : ∀ a b, related a b → relates (f a) (g b)) :
    Reordered relates (as.map f) (bs.map g) := by
  obtain ⟨cs, pairs, perm⟩ := items
  exact ⟨cs.map g, List.rel_map (fun a b => each a b) pairs, perm.map g⟩

theorem filterMap {f : α → Option γ} {g : β → Option δ} (items : Reordered related as bs)
    (each : ∀ a b, related a b → Option.Rel relates (f a) (g b)) :
    Reordered relates (as.filterMap f) (bs.filterMap g) := by
  obtain ⟨cs, pairs, perm⟩ := items
  exact ⟨cs.filterMap g, List.rel_filterMap (fun a b => each a b) pairs, perm.filterMap g⟩

theorem perm {bs : List α} (items : Reordered Eq as bs) : as.Perm bs := by
  obtain ⟨cs, pairs, perm⟩ := items
  rw [List.forall₂_eq_eq_eq] at pairs
  exact pairs ▸ perm

theorem getD {x : Option (List α)} {y : Option (List β)}
    (items : Option.Rel (Reordered related) x y) :
    Reordered related (x.getD []) (y.getD []) := by
  cases items with
  | none => exact .of_forall₂ .nil
  | some each => exact each

/-- So are the other items, without one that is related to one item only. -/
theorem eraseIdx {i j : Nat} (items : Reordered related as bs) (left : i < as.length)
    (right : j < bs.length) (only : ∀ b ∈ bs, related as[i] b → b = bs[j]) :
    Reordered related (as.eraseIdx i) (bs.eraseIdx j) := by
  obtain ⟨cs, pairs, perm⟩ := items
  have inside : i < cs.length := pairs.length_eq ▸ left
  have same : cs[i] = bs[j] :=
    only _ (perm.mem_iff.1 (List.getElem_mem inside)) (pairs.get left inside)
  refine ⟨cs.eraseIdx i, ?_, List.Perm.cons_inv (a := bs[j]) ?_⟩
  · rw [List.eraseIdx_eq_take_drop_succ, List.eraseIdx_eq_take_drop_succ]
    exact List.rel_append (List.forall₂_take i pairs) (List.forall₂_drop (i + 1) pairs)
  · have first := List.getElem_cons_eraseIdx_perm inside
    rw [same] at first
    exact (first.trans perm).trans (List.getElem_cons_eraseIdx_perm right).symm

/-- A search for what one item has does not depend on the order. -/
theorem find?_perm {cs : List β} {p : β → Bool} (perm : cs.Perm bs)
    (unique : ∀ a ∈ bs, ∀ b ∈ bs, p a = true → p b = true → a = b) : cs.find? p = bs.find? p := by
  cases found : cs.find? p with
  | none =>
      rw [eq_comm, List.find?_eq_none]
      exact fun b member => List.find?_eq_none.1 found b (perm.mem_iff.2 member)
  | some c =>
      have member := perm.mem_iff.1 (List.mem_of_find?_eq_some found)
      have holds := List.find?_some found
      obtain ⟨b, found'⟩ := Option.isSome_iff_exists.1 (List.find?_isSome.2 ⟨c, member, holds⟩)
      rw [found']
      exact congrArg some (unique c member b (List.mem_of_find?_eq_some found') holds
        (List.find?_some found'))

theorem find? {p : α → Bool} {q : β → Bool} (items : Reordered related as bs)
    (same : ∀ a b, related a b → p a = q b)
    (unique : ∀ a ∈ bs, ∀ b ∈ bs, q a = true → q b = true → a = b) :
    Option.Rel related (as.find? p) (bs.find? q) := by
  obtain ⟨cs, pairs, perm⟩ := items
  rw [← find?_perm perm unique]
  exact rel_find? pairs same

/-- Under one key stand related items. -/
theorem lookup? [DecidableEq κ] {x : List (κ × α)} {y : List (κ × β)}
    (items : Reordered (fun e f => e.1 = f.1 ∧ related e.2 f.2) x y)
    (distinct : (y.map (·.1)).Nodup) (k : κ) :
    Option.Rel related (DocSchema.lookup? k x) (DocSchema.lookup? k y) := by
  refine rel_map? (find? items (fun e f same => ?_) fun e inside f inside' found found' => ?_)
    fun e f same => same.2
  · rw [same.1]
  · refine List.inj_on_of_nodup_map distinct inside inside' ?_
    rw [eq_of_beq found, eq_of_beq found']

end Reordered

namespace Content

variable {α : Type} {same : α → α → Bool} {c d : Content α}

/-- The parts of a content, each under what tells it apart: its key, or its number. -/
def labelled : Content α → List ((Key ⊕ Nat) × α)
  | .map entries => entries.map fun e => (.inl e.1, e.2)
  | .array items => items.mapIdx fun i a => (.inr i, a)
  | .tuple elements => elements.mapIdx fun i a => (.inr i, a)
  | _ => []

theorem parts_labelled (c : Content α) : c.labelled.map (·.2) = c.parts := by
  cases c with
  | map entries => simp [labelled, parts]
  | array items =>
      apply List.ext_getElem <;> simp [labelled, parts]
  | tuple elements =>
      apply List.ext_getElem <;> simp [labelled, parts]
  | _ => rfl

private theorem numbered_nodup (items : List α) :
    ((items.mapIdx fun i a => ((.inr i : Key ⊕ Nat), a)).map (·.1)).Nodup := by
  rw [List.Nodup, List.pairwise_iff_getElem]
  intro i j first second less
  simp only [List.getElem_map, List.getElem_mapIdx, ne_eq, Sum.inr.injEq]
  exact Nat.ne_of_lt less

theorem labels_nodup (unique : ∀ entries, c = .map entries → (entries.map (·.1)).Nodup) :
    (c.labelled.map (·.1)).Nodup := by
  cases c with
  | map entries =>
      have labels : (entries.map fun e => ((.inl e.1 : Key ⊕ Nat), e.2)).map (·.1) =
          (entries.map (·.1)).map .inl := by simp
      rw [labelled, labels]
      exact (unique entries rfl).map fun _ _ => Sum.inl.inj
  | array items => exact numbered_nodup items
  | tuple elements => exact numbered_nodup elements
  | _ => exact List.nodup_nil

/-- A label is that of one part only. -/
theorem index_of_label {i j : Nat} {label : Key ⊕ Nat} {a b : α}
    (unique : ∀ entries, c = .map entries → (entries.map (·.1)).Nodup)
    (first : c.labelled[i]? = some (label, a)) (second : c.labelled[j]? = some (label, b)) :
    i = j := by
  obtain ⟨inside, -⟩ := List.getElem?_eq_some_iff.1 first
  have below : i < (c.labelled.map (·.1)).length := by simpa using inside
  refine (List.getElem?_inj below (labels_nodup unique)).1 ?_
  rw [List.getElem?_map, List.getElem?_map, first, second]
  rfl

private theorem numbered {items : List α} {i : Nat} {label : Key ⊕ Nat} {a : α}
    (there : (items.mapIdx fun i a => ((.inr i : Key ⊕ Nat), a))[i]? = some (label, a)) :
    label = .inr i ∧ items[i]? = some a := by
  rw [List.getElem?_mapIdx] at there
  obtain ⟨b, found, same⟩ := Option.map_eq_some_iff.1 there
  cases same
  exact ⟨rfl, found⟩

private theorem sameList_numbered {as bs : List α} {i j : Nat} {label : Key ⊕ Nat} {a b : α}
    (related : sameList same as bs = true)
    (left : (as.mapIdx fun i a => ((.inr i : Key ⊕ Nat), a))[i]? = some (label, a))
    (right : (bs.mapIdx fun i a => ((.inr i : Key ⊕ Nat), a))[j]? = some (label, b)) :
    same a b = true := by
  obtain ⟨rfl, found⟩ := numbered left
  obtain ⟨number, found'⟩ := numbered right
  cases number
  obtain ⟨inside, rfl⟩ := List.getElem?_eq_some_iff.1 found
  obtain ⟨inside', rfl⟩ := List.getElem?_eq_some_iff.1 found'
  exact (sameList_iff.1 related).get inside inside'

/-- Parts of equal contents under one label are equal. Of entries, those of the second content are
compared with those of the first. -/
theorem sameBy_labelled {i j : Nat} {label : Key ⊕ Nat} {a b : α}
    (unique : ∀ entries, d = .map entries → (entries.map (·.1)).Nodup)
    (related : c.sameBy same d = true) (left : c.labelled[i]? = some (label, a))
    (right : d.labelled[j]? = some (label, b)) : same a b = true ∨ same b a = true := by
  cases c <;> cases d <;> try cases related
  case hole => cases left
  case primitive p q => cases left
  case map es fs =>
    simp only [labelled, List.getElem?_map] at left right
    obtain ⟨e, found, same⟩ := Option.map_eq_some_iff.1 left
    obtain ⟨f, found', same'⟩ := Option.map_eq_some_iff.1 right
    cases same
    obtain ⟨key, rfl⟩ := Prod.mk.inj same'
    have key : f.1 = e.1 := Sum.inl.inj key
    have member : (e.1, f.2) ∈ fs := key ▸ List.mem_of_getElem? found'
    exact .inr (sameItems_of_mem (unique fs rfl) related (List.mem_of_getElem? found) member)
  case array as bs => exact .inl (sameList_numbered related left right)
  case tuple as bs => exact .inl (sameList_numbered related left right)

end Content

namespace Value

/-- Whether no map holds two entries whose keys are spelled alike. -/
inductive IsSpelledApart : Value → Prop
  | intro {v : Value}
      (entries : ∀ entries, v.content = .map entries → (entries.filterMap (·.1.spelling?)).Nodup)
      (parts : ∀ part ∈ v.content.parts, IsSpelledApart part) : IsSpelledApart v

theorem IsSpelledApart.part {v part : Value} (apart : v.IsSpelledApart)
    (inside : part ∈ v.content.parts) : part.IsSpelledApart := by
  cases apart with
  | intro entries parts => exact parts part inside

theorem IsSpelledApart.unique {v : Value} (apart : v.IsSpelledApart) {entries : List (Key × Value)}
    (map : v.content = .map entries) {i j : Nat} (first : i < entries.length)
    (second : j < entries.length) {name : Bytes} (spelled : entries[i].1.spelling? = some name)
    (spelled' : entries[j].1.spelling? = some name) : i = j := by
  have distinct : (entries.filterMap (·.1.spelling?)).Nodup := by
    cases apart with
    | intro distinct parts => exact distinct entries map
  have apart := List.pairwise_iff_getElem.1 (List.pairwise_filterMap.1 distinct)
  rcases Nat.lt_trichotomy i j with less | equal | less
  · exact absurd rfl (apart i j first second less name spelled name spelled')
  · exact equal
  · exact absurd rfl (apart j i second first less name spelled' name spelled)

/-- Whether values are equal, hold each key once and have no two keys that are spelled alike. -/
structure Reorders (v w : Value) : Prop where
  same : v.same w = true
  left : v.HasUniqueKeys
  right : w.HasUniqueKeys
  leftApart : v.IsSpelledApart
  rightApart : w.IsSpelledApart

namespace Reorders

variable {v w : Value}

theorem symm (equal : v.Reorders w) : w.Reorders v :=
  ⟨same_symm equal.left equal.right equal.same, equal.right, equal.left, equal.rightApart,
    equal.leftApart⟩

theorem mem_parts {i : Nat} {label : Key ⊕ Nat} {a : Value}
    (found : v.content.labelled[i]? = some (label, a)) : a ∈ v.content.parts := by
  rw [← v.content.parts_labelled]
  exact List.mem_map_of_mem (f := (·.2)) (List.mem_of_getElem? found)

theorem part {i j : Nat} {label : Key ⊕ Nat} {a b : Value} (equal : v.Reorders w)
    (left : v.content.labelled[i]? = some (label, a))
    (right : w.content.labelled[j]? = some (label, b)) : a.Reorders b := by
  have inside := mem_parts left
  have inside' := mem_parts right
  have unique := equal.left.part (mem_parts_content inside)
  have unique' := equal.right.part (mem_parts_content inside')
  refine ⟨?_, unique, unique', equal.leftApart.part inside, equal.rightApart.part inside'⟩
  rcases Content.sameBy_labelled equal.right.entries (same_iff.1 equal.same).1 left right with same | same
  · exact same
  · exact same_symm unique' unique same

/-- Equal values are equal to the same values. -/
theorem same_left (equal : v.Reorders w) (u : Value) : v.same u = w.same u := by
  rw [Bool.eq_iff_iff]
  exact ⟨same_trans equal.symm.same, same_trans equal.same⟩

theorem same_right (equal : v.Reorders w) (u : Value) : u.same v = u.same w :=
  same_congr equal.left equal.right equal.same

/-- So they are without the extensions of their roots. -/
theorem bare_left (equal : v.Reorders w) (u : Value) : v.bare.same u = w.bare.same u := by
  have bare {v : Value} (unique : v.HasUniqueKeys) : v.bare.HasUniqueKeys := by
    refine .intro unique.entries List.nodup_nil fun part inside => ?_
    have inside : part ∈ v.content.parts := by
      simpa [Node.parts, root, Value.bare, content, extensions] using inside
    exact unique.part (mem_parts_content inside)
  have same : v.bare.same w.bare = true := same_iff.2 ⟨(same_iff.1 equal.same).1, rfl⟩
  rw [Bool.eq_iff_iff]
  exact ⟨same_trans (same_symm (bare equal.left) (bare equal.right) same), same_trans same⟩

end Reorders

variable {v w : Value}

theorem primitive?_same (same : v.same w = true) :
    Option.Rel (fun p q => Primitive.same p q =
      true) v.content.primitive? w.content.primitive? := by
  have contents := (same_iff.1 same).1
  cases content : v.content <;> cases content' : w.content <;> rw [content, content'] at contents <;>
    try cases contents
  case primitive p q => exact .some contents
  all_goals exact .none

theorem text?_same (same : v.same w = true) : v.text? = w.text? := by
  unfold text?
  rcases eq_of_rel (primitive?_same same) with ⟨left, right⟩ | ⟨p, q, left, right, equal⟩
  · rw [left, right]
  · rw [left, right]
    rcases Primitive.same_cases equal with rfl | ⟨x, y, rfl, rfl, floats⟩ <;> rfl

theorem isHole_same (same : v.same w = true) : v.content.isHole = w.content.isHole := by
  have contents := (same_iff.1 same).1
  cases content : v.content <;> cases content' : w.content <;> rw [content, content'] at contents <;>
    first
    | rfl
    | cases contents

/-- Equal values have equal extensions of each name. -/
theorem extension?_same (left : v.HasUniqueKeys) (same : v.same w = true) (name : Bytes) :
    Option.Rel (fun a b => b.same a = true) (v.extension? name) (w.extension? name) := by
  have items := (same_iff.1 same).2
  have names := sameItems_keys left.extensions items
  change Option.Rel _ (lookup? name v.extensions) (lookup? name w.extensions)
  cases found : lookup? name v.extensions with
  | none =>
      have absent : lookup? name w.extensions = none := by
        cases found' : lookup? name w.extensions with
        | none => rfl
        | some b =>
            have member :=
              names.mem_iff.2 (List.mem_map_of_mem (f := (·.1)) (mem_of_lookup? found'))
            obtain ⟨e, listed, rfl⟩ := List.mem_map.1 member
            rw [lookup?_of_mem left.extensions listed] at found
            cases found
      rw [absent]
      exact .none
  | some a =>
      obtain ⟨b, found', equal⟩ := (sameItems_iff.1 items).2 _ (mem_of_lookup? found)
      have found' : lookup? name w.extensions = some b := found'
      rw [found']
      exact .some equal

end Value

end DocSchema
