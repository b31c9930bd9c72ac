import DocSchema.Proofs.Shuffled

set_option autoImplicit false

namespace DocSchema

/-- Whether two results are both refused, for whatever reason, or are related. -/
def Concur {ε ε' α β : Type} (related : α → β → Prop) (x : Except ε α) (y : Except ε' β) : Prop :=
  Option.Rel related x.toOption y.toOption

namespace Concur

variable {ε ε' α β γ δ : Type} {related : α → β → Prop} {relates : γ → δ → Prop} {x : Except ε α}
  {y : Except ε' β}

theorem ok {a : α} {b : β} (same : related a b) :
    Concur related (.ok a : Except ε α) (.ok b : Except ε' β) :=
  .some same

theorem error (e : ε) (e' : ε') :
    Concur related (.error e : Except ε α) (.error e' : Except ε' β) :=
  .none

theorem refl {related : α → α → Prop} (itself : ∀ a, related a a) (x : Except ε α) :
    Concur related x x := by
  cases x with
  | ok a => exact ok (itself a)
  | error e => exact error e e

theorem bind {f : α → Except ε γ} {g : β → Except ε' δ} (first : Concur related x y)
    (further : ∀ a b, related a b → Concur relates (f a) (g b)) :
    Concur relates (x >>= f) (y >>= g) := by
  rw [Concur, toOption_bind, toOption_bind]
  exact rel_bind? first further

/-- One result that both have, and what is made of it. -/
theorem bind_same {z : Except ε α} {f : α → Except ε γ} {g : α → Except ε δ}
    (further : ∀ a, Concur relates (f a) (g a)) : Concur relates (z >>= f) (z >>= g) :=
  (refl (fun _ => rfl) z).bind fun a _ (same : a = _) => same ▸ further a

theorem and_gives {post : α → Prop} (same : Concur related x y) (gives : Gives post x) :
    Concur (fun a b => related a b ∧ post a) x y := by
  cases x with
  | error e =>
      cases y with
      | error e' => exact .none
      | ok b => cases same
  | ok a =>
      cases y with
      | error e => cases same
      | ok b =>
          cases same with
          | some holds => exact ok ⟨holds, gives a rfl⟩

theorem and_gives' {post : β → Prop} (same : Concur related x y) (gives : Gives post y) :
    Concur (fun a b => related a b ∧ post b) x y := by
  cases x with
  | error e =>
      cases y with
      | error e' => exact .none
      | ok b => cases same
  | ok a =>
      cases y with
      | error e => cases same
      | ok b =>
          cases same with
          | some holds => exact ok ⟨holds, gives b rfl⟩

theorem imp {wider : α → β → Prop} (same : Concur related x y)
    (each : ∀ a b, related a b → wider a b) :
    Concur wider x y := by
  rcases eq_of_rel same with ⟨left, right⟩ | ⟨a, b, left, right, holds⟩
  · rw [Concur, left, right]
    exact .none
  · rw [Concur, left, right]
    exact .some (each a b holds)

/-- Results concur if what is made of them is the same. -/
theorem of_map {f : α → γ} {g : β → γ} (same : (x.map f).toOption = (y.map g).toOption) :
    Concur (fun a b => f a = g b) x y := by
  cases x with
  | error e =>
      cases y with
      | error e' => exact error e e'
      | ok b => cases same
  | ok a =>
      cases y with
      | error e' => cases same
      | ok b => exact ok (Option.some.inj same)

/-- What has a result has a related one. -/
theorem of_ok {a : α} (same : Concur related x y) (made : x = .ok a) :
    ∃ b, y = .ok b ∧ related a b := by
  subst made
  cases y with
  | error e => cases same
  | ok b =>
      cases same with
      | some holds => exact ⟨b, rfl, holds⟩

end Concur

namespace Shape

variable {α β : Type} {R : α → β → Prop} {s : Shape α} {t : Shape β}

theorem Resembles.target?_eq (same : s.Resembles R t) : s.target? = t.target? := by
  cases same <;> rfl

theorem Resembles.imp {S : α → β → Prop} (same : s.Resembles R t) (each : ∀ a b, R a b → S a b) :
    s.Resembles S t := by
  cases same with
  | literal indiscernible => exact .literal indiscernible
  | record allowsUnknown fields =>
      exact .record allowsUnknown
        (fields.imp fun {f g} same => ⟨same.name, same.isOptional, each _ _ same.schema⟩)
  | array length isUnique items => exact .array length isUnique (each _ _ items)
  | map size keys values => exact .map size (each _ _ keys) (each _ _ values)
  | tuple elements => exact .tuple (elements.imp fun {a b} => each a b)
  | union representation variants =>
      exact .union representation (variants.imp fun {v w} same => ⟨same.name, each _ _ same.schema⟩)
  | _ => constructor

end Shape

namespace Constraint

variable {α β : Type} {R : α → β → Prop} {s : Shape α} {t : Shape β}

theorem constrain?_resembles (a : Directive) (v : Value) (same : s.Resembles R t)
    (sound : s.IsSound) :
    Option.Rel (Shape.Resembles R) (constrain? a v s) (constrain? a v t) := by
  have kept {γ : Type} {x : Option γ} {f : γ → Shape α} {g : γ → Shape β}
      (left : constrain? a v s = x.map f)
      (right : constrain? a v t = x.map g) (each : ∀ i, (f i).Resembles R (g i)) :
      Option.Rel (Shape.Resembles R) (constrain? a v s) (constrain? a v t) := by
    rw [left, right]
    cases x with
    | none => exact .none
    | some i => exact .some (each i)
  cases constrains : target? a with
  | none =>
      rw [constrain?_of_idle constrains, constrain?_of_idle constrains]
      exact .some same
  | some target =>
      by_cases kind : s.target? = some target
      case neg =>
        rw [constrain?_eq_none constrains kind,
          constrain?_eq_none constrains (same.target?_eq ▸ kind)]
        exact .none
      cases same with
      | text length pat language =>
          cases kind
          have nonempty : length.open? = some length := open?_of_isSound (.inl rfl) sound
          rcases text_cases constrains with bounds | rfl | rfl
          · exact kept (text_bounded constrains bounds) (text_bounded constrains bounds)
              fun _ => .text ..
          · exact kept (text_pattern nonempty) (text_pattern nonempty) fun _ => .text ..
          · exact kept (text_language nonempty) (text_language nonempty) fun _ => .text ..
      | integer range multipleOf =>
          cases kind
          rcases number_cases constrains with bounds | rfl
          · exact kept (integer_bounded constrains bounds) (integer_bounded constrains bounds)
              fun _ => .integer ..
          · exact kept integer_divisor integer_divisor fun _ => .integer ..
      | float range multipleOf =>
          cases kind
          rcases number_cases constrains with bounds | rfl
          · exact kept (float_bounded constrains bounds) (float_bounded constrains bounds)
              fun _ => .float ..
          · exact kept float_divisor float_divisor fun _ => .float ..
      | array length isUnique items =>
          cases kind
          rcases array_cases constrains with bounds | rfl
          · exact kept (array_bounded constrains bounds) (array_bounded constrains bounds)
              fun _ => .array _ _ items
          · exact kept array_unique array_unique fun _ => .array _ _ items
      | map size keys values =>
          cases kind
          exact kept (map_bounded constrains) (map_bounded constrains) fun _ => .map _ keys values
      | record allowsUnknown fields =>
          cases kind
          exact kept (record_kept constrains) (record_kept constrains) fun _ => .record _ fields
      | union representation variants =>
          cases kind
          exact kept (union_kept constrains) (union_kept constrains) fun _ => .union _ variants
      | _ => cases kind

theorem foldlM_resembles (x : List (Bytes × Value)) (same : s.Resembles R t) (sound : s.IsSound) :
    Option.Rel (Shape.Resembles R) (x.foldlM applied? s) (x.foldlM applied? t) := by
  induction x generalizing s t with
  | nil => exact .some same
  | cons e x ih =>
      rw [List.foldlM_cons, List.foldlM_cons]
      have step : Option.Rel (Shape.Resembles R) (applied? s e) (applied? t e) := by
        cases named : Directive.ofName? e.1 with
        | none =>
            rw [applied?_eq_some s named, applied?_eq_some t named]
            exact .some same
        | some a =>
            rw [applied?_eq s named, applied?_eq t named]
            exact constrain?_resembles a e.2 same sound
      rcases eq_of_rel step with ⟨none, none'⟩ | ⟨s', t', some, some', same'⟩
      · rw [none, none']
        exact .none
      · rw [some, some']
        exact ih same' (isSound_of_applied? sound some)

theorem applyAll_shuffled (path : Path) (s : Shape α) {x y : List (Bytes × Value)}
    (items : List.Forall₂ (fun e f => e.1 = f.1 ∧ e.2.Shuffles f.2) x y) :
    applyAll path s x = applyAll path s y := by
  induction items generalizing s with
  | nil => rfl
  | @cons e f x y first rest ih => simp only [applyAll, first.1, apply_shuffled first.2, ih]

/-- What extensions in another order make of types that resemble each other resembles each other. -/
theorem applyAll_concurs (path path' : Path) {v w : Value} (shuffled : v.Shuffles w)
    (same : s.Resembles R t) (sound : s.IsSound) (unbounded : s.counts = {}) :
    Concur (Shape.Resembles R) (applyAll path s v.extensions) (applyAll path' t w.extensions) := by
  obtain ⟨z, pairs, perm⟩ := shuffled.extensions
  have names : v.extensions.map (·.1) = z.map (·.1) := by
    rw [← List.forall₂_eq_eq_eq, List.forall₂_map_left_iff, List.forall₂_map_right_iff]
    exact pairs.imp fun {e f} same => same.1
  have order := shuffled.order
  have distinct := shuffled.distinct'
  rw [names] at order distinct
  -- The values of the extensions are exchanged first, then their order, and the type last.
  have rearranged := toOption_applyAll_perm perm path path' sound unbounded distinct order
  rw [Concur, applyAll_shuffled path s pairs, rearranged, toOption_applyAll, toOption_applyAll]
  exact foldlM_resembles w.extensions same sound

end Constraint

namespace Metadata

/-- Whether what an extension of the given name says about a type can be read. -/
def isReadable (name : Bytes) (v : Value) : Bool :=
  match Directive.ofName? name with
  | some .description => v.textContent?.isSome
  | some .deprecated => v.bool?.isSome
  | some .examples => v.content.array?.isSome
  | _ => true

theorem isReadable_shuffled (name : Bytes) {v w : Value} (shuffled : v.Shuffles w) :
    isReadable name v = isReadable name w := by
  have arrays : v.content.array?.isSome = w.content.array?.isSome := by
    have contents := shuffled.contents
    generalize v.content = c, w.content = d at contents
    cases contents <;> rfl
  simp only [isReadable, shuffled.textContent?_eq, shuffled.bool?_eq, arrays]

theorem isSome_note (placement : Placement) (name : Bytes) (v : Value) (m : Metadata) :
    (note placement name v m).toOption.isSome = isReadable name v := by
  unfold note isReadable
  cases Directive.ofName? name with
  | none =>
      dsimp only
      split <;> rfl
  | some a =>
      cases a with
      | description => cases v.textContent? <;> rfl
      | deprecated => cases v.bool? <;> rfl
      | examples => cases v.content.array? <;> rfl
      | _ => rfl

/-- What the extensions of a type say can be read or not, whatever their order. -/
theorem isSome_noteAll (placement : Placement) (path : Path) (m : Metadata)
    (x : List (Bytes × Value)) :
    (noteAll placement path m x).toOption.isSome = x.all fun e => isReadable e.1 e.2 := by
  induction x generalizing m with
  | nil => rfl
  | cons e x ih =>
      obtain ⟨name, v⟩ := e
      have first := isSome_note placement name v m
      rw [noteAll, List.all_cons]
      cases noted : note placement name v m with
      | error requirement =>
          rw [noted] at first
          dsimp only
          rw [← first]
          rfl
      | ok n =>
          rw [noted] at first
          dsimp only
          rw [← first]
          exact ih n

theorem noteAll_concurs (placement : Placement) (path : Path) {v w : Value}
    (shuffled : v.Shuffles w) :
    Concur (fun _ _ => True) (noteAll placement path {} v.extensions)
      (noteAll placement path {} w.extensions) := by
  obtain ⟨z, pairs, perm⟩ := shuffled.extensions
  have readable : (v.extensions.all fun e => isReadable e.1 e.2) =
      w.extensions.all fun e => isReadable e.1 e.2 := by
    rw [← perm.all_eq]
    generalize v.extensions = x at pairs
    clear perm
    induction pairs with
    | nil => rfl
    | cons first rest ih =>
        rw [List.all_cons, List.all_cons, first.1, isReadable_shuffled _ first.2, ih]
  rw [← isSome_noteAll placement path {}, ← isSome_noteAll placement path {}] at readable
  rw [Concur]
  generalize (noteAll placement path {} v.extensions).toOption = m,
    (noteAll placement path {} w.extensions).toOption = n at readable
  cases m <;> cases n
  · exact .none
  · cases readable
  · cases readable
  · exact .some trivial

end Metadata

namespace Declaration

/-- Whether two declarations are the same but for metadata and for literals that are not told
apart. -/
inductive Resembles : Declaration → Declaration → Prop
  | node (origin : Path) {s t : Shape Declaration} {R : Declaration → Declaration → Prop}
      (shapes : s.Resembles R t)
      (below : ∀ d e, R d e → Resembles d e) (m n : Metadata) :
      Resembles (.node origin s m) (.node origin t n)

namespace Resembles

variable {d e : Declaration}

theorem origin_eq (same : d.Resembles e) : d.origin = e.origin := by
  cases same
  rfl

theorem shapes (same : d.Resembles e) : d.shape.Resembles Resembles e.shape := by
  cases same with
  | node origin shapes below m n => exact shapes.imp below

theorem bare (path : Path) {s t : Shape Declaration} (shapes : s.Resembles Resembles t) :
    (bare path s).Resembles (.bare path t) :=
  .node path shapes (fun _ _ => id) {} {}

theorem isEmptyRecord_eq (same : d.Resembles e) : d.isEmptyRecord = e.isEmptyRecord := by
  have shapes := same.shapes
  unfold isEmptyRecord
  generalize d.shape = s, e.shape = t at shapes
  cases shapes with
  | record allowsUnknown fields => cases fields <;> rfl
  | _ => rfl

end Resembles

theorem ofExpression_resembles {R : Declaration → Declaration → Prop} (e : TypeExpression) :
    (ofExpression e).Resembles R (ofExpression e) := by
  cases e <;> constructor

/-- The types under `$type` do not depend on extensions. -/
theorem ofTypeDirective_concurs (path : Path) {v w : Value} (shuffled : v.Shuffles w) :
    Concur Resembles (ofTypeDirective path v) (ofTypeDirective path w) := by
  induction shuffled generalizing path with
  | @node c d x y R contents extensions distinct order below ih =>
      have text := (Value.Shuffles.node contents extensions distinct order below).textContent?_eq
      have kind := contents.kindName_eq
      have leaf (other : ∀ vs, c ≠ .tuple vs) : Concur Resembles (ofTypeDirective path (.node c x))
          (ofTypeDirective path (.node d y)) := by
        have other' : ∀ ws, d ≠ .tuple ws := by
          rintro ws rfl
          cases contents
          exact other _ rfl
        rw [ofTypeDirective.eq_2 path c x other, ofTypeDirective.eq_2 path d y other', text, kind]
        cases Value.textContent? (.node d y) with
        | none => exact .error _ _
        | some s =>
            dsimp only
            cases TypeExpression.parse? s with
            | none => exact .error _ _
            | some e => exact .ok (.bare path (ofExpression_resembles e))
      cases contents with
      | tuple elements =>
          have each {vs ws : List Value} (elements : List.Forall₂ R vs ws) (index : UInt8) :
              Concur (List.Forall₂ Resembles) (ofTypeDirectives path index vs)
                (ofTypeDirectives path index ws) := by
            induction elements generalizing index with
            | nil => exact .ok .nil
            | cons first rest further =>
                rw [ofTypeDirectives, ofTypeDirectives]
                exact (ih _ _ first _).bind fun _ _ head => (further (index + 1)).bind fun _ _ tail =>
                  .ok (.cons head tail)
          rw [ofTypeDirective, ofTypeDirective]
          exact (each elements 0).bind fun _ _ elements => .ok (.bare path (.tuple elements))
      | _ =>
          refine leaf fun vs same => ?_
          cases same

theorem counts_ofExpression (e : TypeExpression) : (ofExpression e).counts = {} := by
  cases e <;> rfl

theorem ofTypeDirective_counts (path : Path) (v : Value) :
    Gives (fun d => d.shape.counts = {}) (ofTypeDirective path v) := by
  unfold ofTypeDirective
  split
  · exact .bind .any fun _ _ => .ok rfl
  · split
    · exact .error
    · split
      · exact .ok (counts_ofExpression _)
      · exact .error

theorem union_counts (read : Reader) (v variants : Value) (path : Path) :
    Gives (fun s => s.counts = {}) (union read v variants path) := by
  unfold union
  dsimp only
  split
  · refine .bind .any fun members _ => .ite (fun _ => .error) fun _ => ?_
    split
    · exact .ok rfl
    · exact .bind .any fun _ _ => .ok rfl
  · exact .error

theorem unannotated_counts (read : Reader) (v : Value) (path : Path) (placement : Placement) :
    Gives (fun s => s.counts = {}) (unannotated read v path placement) := by
  unfold unannotated
  split
  · exact .ok (counts_ofExpression _)
  · split
    · exact .ite (fun _ => .bind .any fun _ _ => .ok rfl) fun _ => .ok rfl
    · exact .ite (fun _ => .bind .any fun _ _ => .bind .any fun _ _ => .ok rfl) fun _ => .ok rfl
    · exact .ok rfl

/-- Nothing is bounded before constraints are applied. -/
theorem base_counts (read : Reader) (v : Value) (path : Path) (placement : Placement) :
    Gives (fun found => found.2.counts = {}) (base read v path placement) := by
  unfold base
  split
  · exact (unannotated_counts read v path placement).bind fun _ none => .ok none
  · next a held _ =>
    split
    · unfold annotated
      dsimp only
      split
      · exact (ofTypeDirective_counts _ held).bind fun _ none => .ok none
      · exact .bind .any fun _ _ => .ok rfl
      · unfold map
        split
        · refine .bind ?_ fun _ none => .ok none
          exact .bind .any fun _ _ => Gives.any.bind fun _ _ => .ok rfl
        · exact .error
      · exact .ok rfl
      · exact (union_counts read v held path).bind fun _ none => .ok none
    · exact .error
  · exact .error

/-- Whether values whose extensions are in another order are read alike. -/
def Reader.Concurs (read : Reader) : Prop :=
  ∀ v w path placement, v.Shuffles w →
    Concur Resembles (read v path placement) (read w path placement)

section Parts

variable {read : Reader} (concurs : read.Concurs)
include concurs

theorem tupleElements_concurs (path : Path) (index : UInt8) {vs ws : List Value}
    (elements : List.Forall₂ Value.Shuffles vs ws) :
    Concur (List.Forall₂ Resembles) (tupleElements read path index vs)
      (tupleElements read path index ws) := by
  induction elements generalizing index with
  | nil => exact .ok .nil
  | @cons v w vs ws first rest ih =>
      have whole {d e : Declaration} (head : d.Resembles e) : Concur (List.Forall₂ Resembles)
          (do return d :: (← tupleElements read path (index + 1) vs))
          (do return e :: (← tupleElements read path (index + 1) ws)) :=
        (ih (index + 1)).bind fun _ _ tail => .ok (.cons head tail)
      unfold tupleElements
      dsimp only
      rw [first.isDeclared_eq]
      split
      · exact (concurs v w _ .nested first).bind fun _ _ head => whole head
      · exact whole (.bare _ .any)

theorem recordFields_concurs (path : Path) (seen : List Bytes) {es fs : List (Key × Value)}
    (entries : List.Forall₂ (fun e f => e.1 = f.1 ∧ e.2.Shuffles f.2) es fs) :
    Concur (List.Forall₂ (Field.Resembles Resembles)) (recordFields read path seen es)
      (recordFields read path seen fs) := by
  induction entries generalizing seen with
  | nil => exact .ok .nil
  | @cons e f es fs first rest ih =>
      obtain ⟨key, v⟩ := e
      obtain ⟨key', w⟩ := f
      obtain ⟨rfl, shuffled⟩ : key = key' ∧ v.Shuffles w := first
      rw [recordFields, recordFields]
      split
      · exact ih seen
      · next name spelled =>
        dsimp only
        rw [shuffled.isDeclared_eq, optionalFlag_shuffled shuffled]
        split
        · exact .error _ _
        · split
          · exact (concurs v w _ .nested shuffled).bind fun d e head => .bind_same fun isOptional =>
              (ih (name :: seen)).bind fun _ _ tail => .ok (.cons ⟨rfl, rfl, head⟩ tail)
          · exact ih (name :: seen)

theorem unionVariants_concurs (path : Path) (seen : List Bytes) {es fs : List (Key × Value)}
    (entries : List.Forall₂ (fun e f => e.1 = f.1 ∧ e.2.Shuffles f.2) es fs) :
    Concur (List.Forall₂ (Variant.Resembles Resembles)) (unionVariants read path seen es)
      (unionVariants read path seen fs) := by
  induction entries generalizing seen with
  | nil => exact .ok .nil
  | @cons e f es fs first rest ih =>
      obtain ⟨key, v⟩ := e
      obtain ⟨key', w⟩ := f
      obtain ⟨rfl, shuffled⟩ : key = key' ∧ v.Shuffles w := first
      rw [unionVariants, unionVariants]
      split
      · exact .error _ _
      · next name spelled =>
        split
        · exact .error _ _
        · have whole {d e : Declaration} (head : d.Resembles e) :
              Concur (List.Forall₂ (Variant.Resembles Resembles))
              (do return { name, schema := d } :: (← unionVariants read path (name :: seen) es))
              (do return { name, schema := e } :: (← unionVariants read path (name :: seen) fs)) :=
            (ih (name :: seen)).bind fun _ _ tail => .ok (.cons ⟨rfl, head⟩ tail)
          have declared (hole : Bool) : Concur (List.Forall₂ (Variant.Resembles Resembles))
              (do
                let d ← read v (path ++ [key.segment]) .variant
                if hole || d.isEmptyRecord then refuse (.emptyVariant name) (path ++ [key.segment])
                else return { name, schema := d } :: (← unionVariants read path (name :: seen) es))
              (do
                let e ← read w (path ++ [key.segment]) .variant
                if hole || e.isEmptyRecord then refuse (.emptyVariant name) (path ++ [key.segment])
                else return { name, schema := e } :: (← unionVariants read path (name :: seen) fs)) := by
            refine (concurs v w _ .variant shuffled).bind fun d e head => ?_
            rw [head.isEmptyRecord_eq]
            split
            · exact .error _ _
            · exact whole head
          have contents := shuffled.contents
          generalize v.content = c, w.content = d at contents
          cases contents with
          | primitive p =>
              cases p with
              | null => exact whole (.bare _ .null)
              | _ => exact declared _
          | _ => exact declared _

theorem union_concurs {v w u u' : Value} (shuffled : v.Shuffles w) (variants : u.Shuffles u')
    (path : Path) :
    Concur (Shape.Resembles Resembles) (union read v u path) (union read w u' path) := by
  have contents := variants.contents
  unfold union
  dsimp only
  generalize u.content = c, u'.content = d at contents
  cases contents with
  | map entries =>
      refine (unionVariants_concurs concurs _ [] entries).bind fun members members' same => ?_
      have none : members.isEmpty = members'.isEmpty := by
        cases same <;> rfl
      rw [none]
      split
      · exact .error _ _
      · rcases eq_of_rel (shuffled.directive? .variantRepr) with ⟨none, none'⟩ | ⟨r, r', some, some', given⟩
        · rw [none, none']
          exact .ok (.union _ same)
        · rw [some, some']
          dsimp only
          rw [representation_shuffled given]
          exact .bind_same fun representation => .ok (.union representation same)
  | _ => exact .error _ _

theorem map_concurs {v w : Value} (shuffled : v.Shuffles w) (path : Path) :
    Concur (Shape.Resembles Resembles) (map read v path) (map read w path) := by
  have contents := shuffled.contents
  unfold map
  rcases eq_of_rel (contents.field? "key") with ⟨none, none'⟩ | ⟨k, k', key, key', keys⟩
  · rw [none, none']
    exact .error _ _
  · rcases eq_of_rel (contents.field? "value") with ⟨none, none'⟩ | ⟨x, x', value, value', values⟩
    · rw [key, key', none, none']
      exact .error _ _
    · rw [key, key', value, value']
      exact (concurs k k' _ .nested keys).bind fun _ _ keys => (concurs x x' _ .nested values).bind fun _ _ values =>
        .ok (.map {} keys values)

theorem unannotated_concurs {v w : Value} (shuffled : v.Shuffles w) (path : Path)
    (placement : Placement) :
    Concur (Shape.Resembles Resembles) (unannotated read v path placement)
      (unannotated read w path placement) := by
  have contents := shuffled.contents
  unfold unannotated
  rw [shuffled.typeExpression?_eq, shuffled.isDeclared_eq, unknownFieldsPolicy_shuffled shuffled]
  split
  · exact .ok (ofExpression_resembles _)
  · generalize v.content = c, w.content = d at contents
    cases contents with
    | tuple elements =>
        dsimp only
        split
        · exact (tupleElements_concurs concurs path 0 elements).bind
            fun _ _ elements => .ok (.tuple elements)
        · exact .ok .any
    | map entries =>
        dsimp only
        split
        · exact (recordFields_concurs concurs path [] entries).bind fun _ _ fields => .bind_same fun policy =>
            .ok (.record policy fields)
        · exact .ok .any
    | _ => exact .ok .any

theorem annotated_concurs {v w u u' : Value} (shuffled : v.Shuffles w) (a : Directive)
    (held : u.Shuffles u') (path : Path) :
    Concur (fun p q => p.1 = q.1 ∧ p.2.Resembles Resembles q.2) (annotated read v a u path)
      (annotated read w a u' path) := by
  unfold annotated
  dsimp only
  split
  · exact (ofTypeDirective_concurs _ held).bind fun _ _ same => .ok ⟨same.origin_eq, same.shapes⟩
  · exact (concurs u u' _ .nested held).bind fun _ _ items => .ok ⟨rfl, .array {} false items⟩
  · exact (map_concurs concurs held _).bind fun _ _ same => .ok ⟨rfl, same⟩
  · exact .ok ⟨rfl, .literal held.bare.indiscernible⟩
  · exact (union_concurs concurs shuffled held path).bind fun _ _ same => .ok ⟨rfl, same⟩

theorem base_concurs {v w : Value} (shuffled : v.Shuffles w) (path : Path) (placement : Placement) :
    Concur (fun p q => p.1 = q.1 ∧ p.2.Resembles Resembles q.2) (base read v path placement)
      (base read w path placement) := by
  have directives : List.Forall₂ (fun p q => p.1 = q.1 ∧ p.2.Shuffles q.2)
      (Directive.base.filterMap fun a => (v.directive? a).map fun held => (a, held))
      (Directive.base.filterMap fun a => (w.directive? a).map fun held => (a, held)) := by
    refine List.rel_filterMap (R := Eq) (fun {a} b same => ?_) (List.forall₂_refl _)
    obtain rfl : a = b := same
    exact rel_map? (shuffled.directive? a) fun _ _ held => ⟨rfl, held⟩
  unfold base
  rw [shuffled.typeExpression?_eq, shuffled.primitive?_eq]
  generalize (Directive.base.filterMap fun a => (v.directive? a).map fun held => (a, held)) = x,
    (Directive.base.filterMap fun a => (w.directive? a).map fun held => (a, held)) = y at directives
  match directives with
  | .nil =>
      exact (unannotated_concurs concurs shuffled path placement).bind
        fun _ _ same => .ok ⟨rfl, same⟩
  | .cons (a := (a, u)) (b := (b, u')) first .nil =>
      obtain ⟨rfl, held⟩ : a = b ∧ u.Shuffles u' := first
      dsimp only
      split
      · exact annotated_concurs concurs shuffled a held path
      · exact .error _ _
  | .cons (a := (a, u)) (b := (b, u')) _ (.cons _ _) => exact .error _ _

theorem readWith_concurs (sound : ∀ v path placement, Gives IsSound (read v path placement)) :
    (readWith read).Concurs := by
  intro v w path placement shuffled
  have base := ((base_concurs concurs shuffled path placement).and_gives (base_sound sound v path placement)).and_gives
    (base_counts read v path placement)
  refine base.bind fun found found' same => ?_
  obtain ⟨origin, s⟩ := found
  obtain ⟨origin', t⟩ := found'
  obtain ⟨⟨⟨rfl, shapes⟩, sound⟩, unbounded⟩ := same
  refine (Constraint.applyAll_concurs path path shuffled shapes sound.1 unbounded).bind
    fun s t shapes => ?_
  exact (Metadata.noteAll_concurs placement path shuffled).bind
    fun m n _ => .ok (.node _ shapes (fun _ _ => id) m n)

end Parts

theorem readTo_concurs (depth : Nat) : (readTo depth).Concurs := by
  induction depth with
  | zero => exact fun _ _ path _ _ => .ok (.bare path .any)
  | succ depth ih => exact readWith_concurs ih (readTo_sound depth)

/-- Values whose extensions are in another order declare the same, but for metadata and literals. -/
theorem ofValue_concurs : Reader.Concurs ofValue := by
  intro v w path placement shuffled
  rw [ofValue, ofValue, shuffled.size_eq]
  exact readTo_concurs w.size v w path placement shuffled

end Declaration

end DocSchema
