import Mathlib.Data.List.Forall2
import Mathlib.Data.List.Nodup
import Mathlib.Data.List.Perm.Subperm
import DocSchema.Schema.Shape

set_option autoImplicit false

namespace DocSchema

section Lists

variable {α κ : Type} {same : α → α → Bool}

theorem sameList_iff {as bs : List α} :
    sameList same as bs = true ↔ List.Forall₂ (fun a b => same a b = true) as bs := by
  rw [sameList, Bool.and_eq_true, beq_iff_eq, List.all_eq_true, List.forall₂_iff_zip]
  exact and_congr_right fun _ => ⟨fun all {a b} => all (a, b), fun all e => all⟩

theorem sameItems_iff [DecidableEq κ] {as bs : List (κ × α)} :
    sameItems same as bs = true ↔ as.length = bs.length ∧
      ∀ e ∈ as, ∃ b, lookup? e.1 bs = some b ∧ same b e.2 = true := by
  rw [sameItems, Bool.and_eq_true, beq_iff_eq, List.all_eq_true]
  exact and_congr_right fun _ => forall₂_congr fun e _ => Option.any_eq_true _ _

theorem lookup?_of_mem [DecidableEq κ] {items : List (κ × α)} {e : κ × α}
    (unique : (items.map (·.1)).Nodup) (member : e ∈ items) : lookup? e.1 items = some e.2 := by
  induction items with
  | nil => cases member
  | cons first items ih =>
      rw [List.map_cons, List.nodup_cons] at unique
      rw [lookup?, List.find?_cons]
      rcases List.mem_cons.1 member with rfl | later
      · simp
      · have other : first.1 ≠ e.1 := by
          intro equal
          exact unique.1 (equal ▸ List.mem_map_of_mem later)
        rw [beq_eq_false_iff_ne.2 other]
        exact ih unique.2 later

theorem sameList_trans {as bs cs : List α}
    (trans : ∀ a ∈ as, ∀ b ∈ bs, ∀ c ∈ cs, same a b = true → same b c = true → same a c = true)
    (first : sameList same as bs = true) (second : sameList same bs cs = true) :
    sameList same as cs = true := by
  rw [sameList_iff] at first second ⊢
  induction first generalizing cs with
  | nil => exact second
  | @cons a b as bs related rest ih =>
      cases second with
      | @cons _ c _ cs related' rest' =>
          refine .cons (trans a List.mem_cons_self b List.mem_cons_self c List.mem_cons_self related
            related') (ih ?_ rest')
          intro a' left b' middle c' right
          exact trans a' (List.mem_cons_of_mem a left) b' (List.mem_cons_of_mem b middle) c'
            (List.mem_cons_of_mem c right)

theorem sameList_symm {as bs : List α}
    (symm : ∀ a ∈ as, ∀ b ∈ bs, same a b = true → same b a = true)
    (related : sameList same as bs = true) : sameList same bs as = true := by
  rw [sameList_iff] at related ⊢
  induction related with
  | nil => exact .nil
  | @cons a b as bs related rest ih =>
      refine .cons (symm a List.mem_cons_self b List.mem_cons_self related) (ih ?_)
      intro a' left b' right
      exact symm a' (List.mem_cons_of_mem a left) b' (List.mem_cons_of_mem b right)

theorem sameItems_trans [DecidableEq κ] {as bs cs : List (κ × α)}
    (trans : ∀ a ∈ as, ∀ b ∈ bs, ∀ c ∈ cs, same c.2 b.2 = true → same b.2 a.2 = true →
      same c.2 a.2 = true)
    (first : sameItems same as bs = true) (second : sameItems same bs cs = true) :
    sameItems same as cs = true := by
  rw [sameItems_iff] at first second ⊢
  refine ⟨first.1.trans second.1, fun e member => ?_⟩
  obtain ⟨b, found, related⟩ := first.2 e member
  have middle := mem_of_lookup? found
  obtain ⟨c, found', related'⟩ := second.2 _ middle
  exact ⟨c, found', trans e member _ middle _ (mem_of_lookup? found') related' related⟩

/-- Lists of one length, the first of which has no key twice, share their keys if the second one has
all keys of the first. -/
theorem sameItems_keys [DecidableEq κ] {as bs : List (κ × α)} (left : (as.map (·.1)).Nodup)
    (related : sameItems same as bs = true) : (as.map (·.1)).Perm (bs.map (·.1)) := by
  obtain ⟨length, each⟩ := sameItems_iff.1 related
  have inside : as.map (·.1) ⊆ bs.map (·.1) := by
    intro k member
    obtain ⟨a, listed, rfl⟩ := List.mem_map.1 member
    obtain ⟨b, found, -⟩ := each a listed
    exact List.mem_map_of_mem (f := (·.1)) (mem_of_lookup? found)
  exact (List.subperm_of_subset left inside).perm_of_length_le (by simp [length])

/-- What is held under one key of both lists is related. -/
theorem sameItems_of_mem [DecidableEq κ] {as bs : List (κ × α)} {k : κ} {a b : α}
    (right : (bs.map (·.1)).Nodup) (related : sameItems same as bs = true) (member : (k, a) ∈ as)
    (member' : (k, b) ∈ bs) : same b a = true := by
  obtain ⟨b', found, holds⟩ := (sameItems_iff.1 related).2 (k, a) member
  have same_part := Option.some.inj ((lookup?_of_mem right member').symm.trans found)
  subst same_part
  exact holds

theorem sameItems_symm [DecidableEq κ] {as bs : List (κ × α)} (left : (as.map (·.1)).Nodup)
    (right : (bs.map (·.1)).Nodup)
    (symm : ∀ a ∈ as, ∀ b ∈ bs, same b.2 a.2 = true → same a.2 b.2 = true)
    (related : sameItems same as bs = true) : sameItems same bs as = true := by
  refine sameItems_iff.2 ⟨(sameItems_iff.1 related).1.symm, fun e member => ?_⟩
  have listed := (sameItems_keys left related).mem_iff.2 (List.mem_map_of_mem (f := (·.1)) member)
  obtain ⟨a, listed, key⟩ := List.mem_map.1 listed
  refine ⟨a.2, key ▸ lookup?_of_mem left listed, symm a listed e member ?_⟩
  exact sameItems_of_mem right related (k := e.1) (key ▸ listed) member

end Lists

namespace Binary64

variable {x y z : Binary64}

theorem same_iff : x.same y = true ↔ ∃ p, x.extended? = some p ∧ y.extended? = some p := by
  unfold same
  cases x.extended? with
  | none => simp
  | some p =>
      cases y.extended? with
      | none => simp
      | some q =>
          simp only [beq_iff_eq, Option.some.injEq]
          constructor
          · intro same
            subst same
            exact ⟨p, rfl, rfl⟩
          · rintro ⟨r, rfl, rfl⟩
            rfl

theorem same_symm (same : x.same y = true) : y.same x = true := by
  obtain ⟨p, left, right⟩ := same_iff.1 same
  exact same_iff.2 ⟨p, right, left⟩

theorem same_trans (first : x.same y = true) (second : y.same z = true) : x.same z = true := by
  obtain ⟨p, left, middle⟩ := same_iff.1 first
  obtain ⟨q, middle', right⟩ := same_iff.1 second
  exact same_iff.2 ⟨p, left, by rw [right, ← middle', middle]⟩

end Binary64

namespace Primitive

variable {p q r : Primitive}

theorem same_cases (same : p.same q = true) :
    p = q ∨ ∃ x y, p = .float x ∧ q = .float y ∧ x.same y = true := by
  unfold Primitive.same at same
  split at same
  case h_1 x y => exact .inr ⟨x, y, rfl, rfl, same⟩
  case h_2 => exact .inl (beq_iff_eq.1 same)

theorem same_symm (same : p.same q = true) : q.same p = true := by
  rcases same_cases same with rfl | ⟨x, y, rfl, rfl, floats⟩
  · exact same
  · exact Binary64.same_symm floats

theorem same_trans (first : p.same q = true) (second : q.same r = true) : p.same r = true := by
  rcases same_cases first with rfl | ⟨x, y, rfl, rfl, floats⟩
  · exact second
  · rcases same_cases second with rfl | ⟨y', z, equal, rfl, floats'⟩
    · exact first
    · have same := Primitive.float.inj equal
      subst same
      exact Binary64.same_trans floats floats'

end Primitive

namespace Content

variable {α : Type} {same : α → α → Bool} {c d e : Content α}

theorem sameBy_trans
    (trans : ∀ a ∈ c.parts, ∀ b ∈ d.parts, ∀ x ∈ e.parts,
      (same a b = true → same b x = true → same a x = true) ∧
        (same x b = true → same b a = true → same x a = true))
    (first : c.sameBy same d = true) (second : d.sameBy same e = true) :
    c.sameBy same e = true := by
  cases c <;> cases d <;> try cases first
  all_goals cases e <;> try cases second
  case hole => rfl
  case primitive p q r => exact Primitive.same_trans first second
  case map as bs cs =>
    exact sameItems_trans (fun a left b middle x right =>
      (trans a.2 (List.mem_map_of_mem left) b.2 (List.mem_map_of_mem middle) x.2
        (List.mem_map_of_mem right)).2) first second
  case array as bs cs =>
    exact sameList_trans (fun a left b middle x right => (trans a left b middle x right).1) first
      second
  case tuple as bs cs =>
    exact sameList_trans (fun a left b middle x right => (trans a left b middle x right).1) first
      second

theorem sameBy_symm (left : ∀ entries, c = .map entries → (entries.map (·.1)).Nodup)
    (right : ∀ entries, d = .map entries → (entries.map (·.1)).Nodup)
    (symm : ∀ a ∈ c.parts, ∀ b ∈ d.parts,
      (same a b = true → same b a = true) ∧ (same b a = true → same a b = true))
    (related : c.sameBy same d = true) : d.sameBy same c = true := by
  cases c <;> cases d <;> try cases related
  case hole => rfl
  case primitive p q => exact Primitive.same_symm related
  case map as bs =>
    exact sameItems_symm (left as rfl) (right bs rfl) (fun a inside b inside' =>
      (symm a.2 (List.mem_map_of_mem inside) b.2 (List.mem_map_of_mem inside')).2) related
  case array as bs =>
    exact sameList_symm (fun a inside b inside' => (symm a inside b inside').1) related
  case tuple as bs =>
    exact sameList_symm (fun a inside b inside' => (symm a inside b inside').1) related

end Content

namespace Value

/-- Whether no map and no table of extensions holds two entries under one key. -/
inductive HasUniqueKeys : Value → Prop
  | intro {v : Value} (keys : ∀ entries, v.content = .map entries → (entries.map (·.1)).Nodup)
      (names : (v.extensions.map (·.1)).Nodup)
      (parts : ∀ part ∈ v.root.parts, HasUniqueKeys part) : HasUniqueKeys v

variable {u v w : Value}

theorem HasUniqueKeys.part {part : Value} (unique : v.HasUniqueKeys)
    (inside : part ∈ v.root.parts) : part.HasUniqueKeys := by
  cases unique with
  | intro keys names parts => exact parts part inside

theorem HasUniqueKeys.extensions (unique : v.HasUniqueKeys) : (v.extensions.map (·.1)).Nodup := by
  cases unique with
  | intro keys names parts => exact names

theorem HasUniqueKeys.entries (unique : v.HasUniqueKeys) (entries : List (Key × Value))
    (map : v.content = .map entries) : (entries.map (·.1)).Nodup := by
  cases unique with
  | intro keys names parts => exact keys entries map

theorem mem_parts_content {part : Value} (inside : part ∈ v.content.parts) :
    part ∈ v.root.parts :=
  List.mem_append_left _ inside

theorem mem_parts_extensions {e : Bytes × Value} (inside : e ∈ v.extensions) :
    e.2 ∈ v.root.parts :=
  List.mem_append_right _ (List.mem_map_of_mem (f := (·.2)) inside)

theorem same_iff :
    v.same w = true ↔ v.content.sameBy same w.content = true ∧
      sameItems same v.extensions w.extensions = true := by
  rw [same_eq, Bool.and_eq_true]

private theorem same_trans_of_size (n : Nat) (u v w : Value) (small : u.size + v.size + w.size ≤ n)
    (first : u.same v = true) (second : v.same w = true) : u.same w = true := by
  induction n generalizing u v w with
  | zero =>
      have positive := u.size_pos
      omega
  | succ n ih =>
      have trans : ∀ a ∈ u.root.parts, ∀ b ∈ v.root.parts, ∀ c ∈ w.root.parts,
          (a.same b = true → b.same c = true → a.same c = true) ∧
            (c.same b = true → b.same a = true → c.same a = true) := by
        intro a left b middle c right
        have leftLess := size_lt_of_mem_parts left
        have middleLess := size_lt_of_mem_parts middle
        have rightLess := size_lt_of_mem_parts right
        exact ⟨ih a b c (by omega), ih c b a (by omega)⟩
      rw [same_iff] at first second ⊢
      refine ⟨Content.sameBy_trans ?_ first.1 second.1, sameItems_trans ?_ first.2 second.2⟩
      · intro a left b middle c right
        exact trans a (mem_parts_content left) b (mem_parts_content middle) c
          (mem_parts_content right)
      · intro a left b middle c right
        exact (trans a.2 (mem_parts_extensions left) b.2 (mem_parts_extensions middle) c.2
          (mem_parts_extensions right)).2

theorem same_trans (first : u.same v = true) (second : v.same w = true) : u.same w = true :=
  same_trans_of_size _ u v w (Nat.le_refl _) first second

private theorem same_symm_of_size (n : Nat) (v w : Value) (small : v.size + w.size ≤ n)
    (left : v.HasUniqueKeys) (right : w.HasUniqueKeys) (same : v.same w = true) :
    w.same v = true := by
  induction n generalizing v w with
  | zero =>
      have positive := v.size_pos
      omega
  | succ n ih =>
      have symm : ∀ a ∈ v.root.parts, ∀ b ∈ w.root.parts,
          (a.same b = true → b.same a = true) ∧ (b.same a = true → a.same b = true) := by
        intro a inside b inside'
        have leftLess := size_lt_of_mem_parts inside
        have rightLess := size_lt_of_mem_parts inside'
        exact ⟨ih a b (by omega) (left.part inside) (right.part inside'),
          ih b a (by omega) (right.part inside') (left.part inside)⟩
      rw [same_iff] at same ⊢
      refine ⟨Content.sameBy_symm left.entries right.entries ?_ same.1,
        sameItems_symm left.extensions right.extensions ?_ same.2⟩
      · intro a inside b inside'
        exact symm a (mem_parts_content inside) b (mem_parts_content inside')
      · intro a inside b inside'
        exact (symm a.2 (mem_parts_extensions inside) b.2 (mem_parts_extensions inside')).2

theorem same_symm (left : v.HasUniqueKeys) (right : w.HasUniqueKeys) (same : v.same w = true) :
    w.same v = true :=
  same_symm_of_size _ v w (Nat.le_refl _) left right same

/-- Values that hold each key once and are equal are equal to the same values. -/
theorem same_congr (left : v.HasUniqueKeys) (right : w.HasUniqueKeys) (same : v.same w = true) :
    u.same v = u.same w := by
  rw [Bool.eq_iff_iff]
  exact ⟨fun first => same_trans first same,
    fun first => same_trans first (same_symm left right same)⟩

end Value

end DocSchema
