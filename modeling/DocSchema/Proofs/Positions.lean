import DocSchema.Proofs.Choices

set_option autoImplicit false

namespace DocSchema

def Value.at? (v : Value) : (position : List Nat) → Option Value
  | [] => some v
  | i :: position => v.content.parts[i]?.bind fun part => part.at? position

theorem Value.at?_append (v : Value) (p q : List Nat) :
    v.at? (p ++ q) = (v.at? p).bind fun part => part.at? q := by
  induction p generalizing v with
  | nil => rfl
  | cons i p ih => simp only [List.cons_append, at?, Option.bind_assoc, ih]

/-- Whether two sites are of one value under a root, maybe along different paths. -/
structure Site.Coincide (root : Value) (s t : Site) : Prop where
  position : t.position = s.position
  value : t.value = s.value
  placed : root.at? s.position = some s.value

structure Call.Coincide (root : Value) (c d : Call) : Prop where
  type : d.1 = c.1
  site : c.2.1.Coincide root d.2.1
  isOptional : d.2.2 = c.2.2

namespace Site.Coincide

variable {root : Value} {s t : Site}

theorem root_self (root : Value) (path : Path) :
    Site.Coincide root ⟨root, path, []⟩ ⟨root, path, []⟩ :=
  ⟨rfl, rfl, rfl⟩

theorem left (coincide : s.Coincide root t) : s.Coincide root s :=
  ⟨rfl, rfl, coincide.placed⟩

theorem right (coincide : s.Coincide root t) : t.Coincide root t :=
  ⟨rfl, rfl, by rw [coincide.position, coincide.value, coincide.placed]⟩

/-- Under one root, one position is enough. -/
theorem of_position (left : s.Coincide root s) (right : t.Coincide root t)
    (position : t.position = s.position) : s.Coincide root t := by
  refine ⟨position, ?_, left.placed⟩
  have same := right.placed
  rw [position, left.placed] at same
  exact (Option.some.inj same).symm

theorem part (coincide : s.Coincide root t) {i : Nat} {v : Value} (step step' : Segment)
    (inside : s.value.content.parts[i]? = some v) :
    (s.part i step v).Coincide root (t.part i step' v) := by
  refine ⟨?_, rfl, ?_⟩
  · rw [Site.part, Site.part, coincide.position]
  · rw [Site.part, Value.at?_append, coincide.placed, Option.bind_some, Value.at?, inside]
    rfl

theorem entries? (coincide : s.Coincide root t) :
    Option.Rel (List.Forall₂ fun e e' => e'.1 = e.1 ∧
      e.2.Coincide root e'.2) s.entries? t.entries? := by
  unfold Site.entries?
  rw [coincide.value]
  cases content : s.value.content with
  | map entries =>
      refine .some (forall₂_mapIdx rfl fun i inside _ => ⟨rfl, coincide.part _ _ ?_⟩)
      simp [content, Content.parts, inside]
  | _ => exact .none

theorem array? (coincide : s.Coincide root t) :
    Option.Rel (List.Forall₂ (Site.Coincide root)) s.array? t.array? := by
  unfold Site.array?
  rw [coincide.value]
  cases content : s.value.content with
  | array items =>
      refine .some (forall₂_mapIdx rfl fun i inside _ => coincide.part _ _ ?_)
      simp [content, Content.parts, inside]
  | _ => exact .none

theorem tuple? (coincide : s.Coincide root t) :
    Option.Rel (List.Forall₂ (Site.Coincide root)) s.tuple? t.tuple? := by
  unfold Site.tuple?
  rw [coincide.value]
  cases content : s.value.content with
  | tuple elements =>
      refine .some (forall₂_mapIdx rfl fun i inside _ => coincide.part _ _ ?_)
      simp [content, Content.parts, inside]
  | _ => exact .none

theorem field? (coincide : s.Coincide root t) (name : Bytes) :
    Option.Rel (Site.Coincide root) (s.field? name) (t.field? name) := by
  have found : Option.Rel (fun e e' => e'.1 = e.1 ∧ e.2.Coincide root e'.2)
      (s.entries?.bind fun es => es.find? fun e => e.1.spelling? == some name)
      (t.entries?.bind fun es => es.find? fun e => e.1.spelling? == some name) :=
    rel_bind? coincide.entries? fun es es' each => rel_find? each fun e e' same => by rw [same.1]
  exact rel_map? found fun e e' same => ⟨same.2.position, same.2.value, same.2.placed⟩

/-- Visits of one value call for the same parts. -/
theorem required (coincide : s.Coincide root t) (id : SchemaId) {shape : Shape SchemaId} :
    List.Forall₂ (Call.Coincide root) (s.required [] id shape) (t.required [] id shape) := by
  cases shape with
  | record fields allowsUnknown =>
      refine List.rel_filterMap ?_ (List.forall₂_same.2 fun f _ => rfl)
      rintro f - rfl
      exact rel_map? (coincide.field? f.name) fun _ _ same => ⟨rfl, same, rfl⟩
  | array item length isUnique =>
      exact List.rel_map (fun _ _ same => ⟨rfl, same, rfl⟩) (forall₂_getD coincide.array?)
  | map key value size =>
      exact List.rel_map (fun _ _ same => ⟨rfl, same.2, rfl⟩) (forall₂_getD coincide.entries?)
  | tuple elements =>
      have types : List.Forall₂ Eq elements elements := List.forall₂_refl elements
      exact List.rel_map (fun _ _ same => ⟨same.1.symm, same.2, rfl⟩)
        (forall₂_zip types (forall₂_getD coincide.tuple?))
  | _ => exact .nil

end Site.Coincide

def Walker.Agree {α β : Type} (related : α → β → Prop) (x : Walker α) (y : Walker β) : Prop :=
  ∀ a b f g, x.log = .ok (a, f) → y.log = .ok (b, g) → related a b

namespace Walker.Agree

variable {α β γ δ : Type} {related : α → β → Prop} {relates : γ → δ → Prop}

theorem pure {a : α} {b : β} (same : related a b) : Agree related (Pure.pure a) (Pure.pure b) := by
  intro a' b' f g left right
  cases left
  cases right
  exact same

theorem bind {x : Walker α} {y : Walker β} {h : α → Walker γ} {k : β → Walker δ}
    (first : Agree related x y) (further : ∀ a b, related a b → Agree relates (h a) (k b)) :
    Agree relates (x >>= h) (y >>= k) := by
  intro c d f g left right
  obtain ⟨a, before, after, found, rest, -⟩ := bind_log left
  obtain ⟨b, before', after', found', rest', -⟩ := bind_log right
  exact further a b (first a b before before' found found') c d after after' rest rest'

theorem any (x : Walker α) (y : Walker β) : Agree (fun _ _ => True) x y :=
  fun _ _ _ _ _ _ => trivial

end Walker.Agree

structure Choice.Coincide (root : Value) (c d : Choice) : Prop where
  variant : d.variant = c.variant
  target : c.target.Coincide root d.target

namespace Walk

open Walker (Agree)

/-- Whether two walkers, if both end, choose the same but for the path of the content. -/
def ChooseAlike (root : Value) (x y : Walker (Option Choice)) : Prop :=
  Agree (Option.Rel (Choice.Coincide root)) x y

variable {root : Value} {w w' : Walk} {u : UnionType} {s t : Site}

theorem refuse_alike (path path' : Path) (m m' : Mismatch) :
    ChooseAlike root (refuse path m) (refuse path' m') :=
  (Agree.any _ _).bind fun _ _ _ => .pure .none

theorem choose_alike (coincide : s.Coincide root t) (name : Bytes) (tagPath tagPath' : Path)
    (tag tag' : Option Bytes) :
    ChooseAlike root (choose u name s tagPath tag) (choose u name t tagPath' tag') := by
  unfold choose
  cases u.find? name with
  | none => exact refuse_alike _ _ _ _
  | some v => exact .pure (.some ⟨rfl, coincide⟩)

theorem agreed_alike {x y : Walker (Option Choice)} (alike : ChooseAlike root x y)
    (extension : Option Bytes) (name : Bytes) :
    ChooseAlike root (agreed s extension name x) (agreed t extension name y) := by
  unfold agreed
  split
  · exact refuse_alike _ _ _ _
  · exact alike

theorem withTag_alike {h k : Bytes → Walker (Option Choice)} (coincide : s.Coincide root t)
    (alike : ∀ name, ChooseAlike root (h name) (k name)) :
    ChooseAlike root (withTag s h) (withTag t k) := by
  unfold withTag
  rw [coincide.value]
  cases s.value.text? with
  | none => exact refuse_alike _ _ _ _
  | some text => exact alike _

theorem namedEntries_coincide {entries entries' : List (Key × Site)}
    (each : List.Forall₂ (fun e e' => e'.1 = e.1 ∧ e.2.Coincide root e'.2) entries entries') :
    List.Forall₂ (fun e e' => e'.2.1 = e.2.1 ∧ e.2.2.Coincide root e'.2.2) (namedEntries u entries)
      (namedEntries u entries') := by
  have numbered : List.Forall₂ (fun e e' => e'.2.1 = e.2.1 ∧ e.2.2.Coincide root e'.2.2)
      (entries.mapIdx fun i e => (i, e)) (entries'.mapIdx fun i e => (i, e)) :=
    forall₂_mapIdx each.length_eq fun i left right => each.get left right
  refine List.rel_filterMap ?_ numbered
  rintro ⟨i, key, content⟩ ⟨i', key', content'⟩ ⟨same, coincide⟩
  dsimp only at same coincide ⊢
  rw [same]
  cases key.spelling? with
  | none => exact .none
  | some name =>
      simp only [Option.bind_some]
      split
      · exact .some ⟨rfl, coincide⟩
      · exact .none

theorem adjacentNamed_alike (coincide : s.Coincide root t) (content name : Bytes)
    (tagPath tagPath' : Path) :
    ChooseAlike root (w.adjacentNamed u content name s tagPath)
      (w'.adjacentNamed u content name t tagPath') := by
  unfold adjacentNamed
  rcases eq_of_rel (coincide.field? content) with ⟨left, right⟩ | ⟨part, part', left, right, same⟩
  · rw [left, right]
    exact (Agree.any _ _).bind fun _ _ _ => .pure .none
  · rw [left, right]
    exact choose_alike same _ _ _ _ _

section Explicit

variable (explicit : w.isLenient = false) (explicit' : w'.isLenient = false)
include explicit explicit'

theorem untagged_alike : ChooseAlike root (w.untagged u s) (w'.untagged u t) := by
  unfold untagged
  rw [explicit, explicit']
  cases u.representation <;> exact refuse_alike _ _ _ _

theorem byExtension_alike (coincide : s.Coincide root t) (extension : Option Bytes) :
    ChooseAlike root (w.byExtension u s extension) (w'.byExtension u t extension) := by
  cases extension with
  | none => exact untagged_alike explicit explicit'
  | some name => exact choose_alike coincide _ _ _ _ _

theorem external_alike (coincide : s.Coincide root t) (extension : Option Bytes) :
    ChooseAlike root (w.external u s extension) (w'.external u t extension) := by
  unfold external
  have named : List.Forall₂ _ (namedEntries u _) (namedEntries u _) :=
    namedEntries_coincide (forall₂_getD coincide.entries?)
  dsimp only
  revert named
  generalize namedEntries u (s.entries?.getD []) = named
  generalize namedEntries u (t.entries?.getD []) = named'
  intro named
  cases named with
  | nil =>
      dsimp only
      split
      · exact byExtension_alike explicit explicit' coincide extension
      · exact refuse_alike _ _ _ _
  | cons first rest =>
      cases rest with
      | nil =>
          obtain ⟨name, content⟩ := first
          dsimp only
          rw [name]
          exact agreed_alike ((Agree.any _ _).bind fun _ _ _ => choose_alike content _ _ _ _ _) _ _
      | cons => exact refuse_alike _ _ _ _

theorem internal_alike (coincide : s.Coincide root t) (tag : Bytes) (extension : Option Bytes) :
    ChooseAlike root (w.internal u tag s extension) (w'.internal u tag t extension) := by
  unfold internal
  rcases eq_of_rel coincide.entries? with ⟨left, right⟩ | ⟨entries, entries', left, right, -⟩
  · rw [left, right]
    exact refuse_alike _ _ _ _
  · rw [left, right]
    rcases eq_of_rel (coincide.field? tag) with ⟨left, right⟩ | ⟨field, field', left, right, same⟩
    · simp only [left, right, Option.isNone_some, Bool.false_eq_true, ↓reduceIte]
      exact byExtension_alike explicit explicit' coincide extension
    · simp only [left, right, Option.isNone_some, Bool.false_eq_true, ↓reduceIte]
      exact withTag_alike same fun name => agreed_alike
        (choose_alike coincide _ _ _ _ _) extension name

theorem adjacent_alike (coincide : s.Coincide root t) (tag content : Bytes)
    (extension : Option Bytes) :
    ChooseAlike root (w.adjacent u tag content s extension)
      (w'.adjacent u tag content t extension) := by
  unfold adjacent
  rcases eq_of_rel coincide.entries? with ⟨left, right⟩ | ⟨entries, entries', left, right, -⟩
  · rw [left, right]
    exact refuse_alike _ _ _ _
  rw [left, right]
  refine (Agree.any _ _).bind fun _ _ _ => ?_
  rcases eq_of_rel (coincide.field? tag) with ⟨left, right⟩ | ⟨field, field', left, right, same⟩
  · rw [left, right]
    cases extension with
    | some name => exact adjacentNamed_alike coincide _ _ _ _
    | none =>
        rcases eq_of_rel (coincide.field? content) with ⟨left, right⟩ | ⟨part, part', left, right, same⟩
        · simp only [left, right]
          exact refuse_alike _ _ _ _
        · simp only [left, right]
          exact untagged_alike explicit explicit'
  · rw [left, right]
    exact withTag_alike same fun name => agreed_alike
      (adjacentNamed_alike coincide _ _ _ _) extension name

/-- Where variants have to be named, all visits of one value choose the same variant. -/
theorem dispatch_alike (coincide : s.Coincide root t) :
    ChooseAlike root (w.dispatch u s) (w'.dispatch u t) := by
  unfold dispatch
  extract_lets named named'
  have alike (extension : Option Bytes) :
      ChooseAlike root (named extension) (named' extension) := by
    unfold named named'
    cases u.representation with
    | tagged => exact byExtension_alike explicit explicit' coincide extension
    | external => exact external_alike explicit explicit' coincide extension
    | internal tag => exact internal_alike explicit explicit' coincide tag extension
    | adjacent tag content => exact adjacent_alike explicit explicit' coincide tag content extension
  rw [coincide.value]
  cases s.value.extension? "variant" with
  | none => exact alike none
  | some extension =>
      dsimp only
      cases extension.text? with
      | none => exact refuse_alike _ _ _ _
      | some text => exact alike _

end Explicit

end Walk

end DocSchema
