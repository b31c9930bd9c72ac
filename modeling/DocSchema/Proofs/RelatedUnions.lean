import DocSchema.Proofs.RelatedWalks

set_option autoImplicit false

namespace DocSchema

open Walker (Alike)

variable {R : SchemaId → SchemaId → Prop}

structure UnionType.Related (R : SchemaId → SchemaId → Prop) (u u' : UnionType) : Prop where
  variants : List.Forall₂ (Variant.Related R) u.variants u'.variants
  representation : u.representation = u'.representation

/-- Whether two choices lead to the same content, to check against related variants. -/
structure Choice.Related (R : SchemaId → SchemaId → Prop) (c c' : Choice) : Prop where
  variant : c.variant.Related R c'.variant
  target : c.target = c'.target
  tag : c.tag = c'.tag

theorem UnionType.Related.find? {u u' : UnionType} (unions : u.Related R u') (name : Bytes) :
    Option.Rel (Variant.Related R) (u.find? name) (u'.find? name) :=
  rel_find? unions.variants fun v v' same => by rw [same.name]

theorem UnionType.Related.isSome_find? {u u' : UnionType} (unions : u.Related R u') (name : Bytes) :
    (u.find? name).isSome = (u'.find? name).isSome := by
  have named := unions.find? name
  generalize u.find? name = v at named
  generalize u'.find? name = v' at named
  cases named <;> rfl

namespace Walk

variable {w w' : Walk} {u u' : UnionType} {s : Site} {fs fs' : List (Field SchemaId)}

theorem hasRequired_congr (fields : List.Forall₂ (Field.Related R) fs fs') (present : List Bytes) :
    hasRequired fs present = hasRequired fs' present := by
  unfold hasRequired
  induction fields with
  | nil => rfl
  | cons first rest ih => rw [List.all_cons, List.all_cons, first.name, first.isOptional, ih]

theorem covers_congr (fields : List.Forall₂ (Field.Related R) fs fs') (present : List Bytes) :
    covers fs present = covers fs' present := by
  simp only [covers, Field.any_name fields]

theorem alike_refuse (path : Path) {m m' : Mismatch} (kinds : m.kind = m'.kind) :
    Alike (Option.Rel (Choice.Related R)) (refuse path m) (refuse path m') :=
  (Alike.report path kinds).bind fun _ _ _ => .pure .none

theorem alike_choose (unions : u.Related R u') (name : Bytes) (target : Site) (tagPath : Path)
    (tag : Option Bytes) :
    Alike (Option.Rel (Choice.Related R)) (choose u name target tagPath tag)
      (choose u' name target tagPath tag) := by
  have named := unions.find? name
  unfold choose
  generalize u.find? name = v at named
  generalize u'.find? name = v' at named
  cases named with
  | none => exact alike_refuse tagPath rfl
  | some variants => exact .pure (.some ⟨variants, rfl, rfl⟩)

theorem Related.candidate? {v v' : Variant SchemaId} (walks : w.Related R w')
    (variants : v.Related R v') (s : Site) : Alike Eq (w.candidate? s v) (w'.candidate? s v') := by
  have tried : Alike Eq
      (do return if ← Walker.accepts (w.check v.schema s) then some false else none)
      (do return if ← Walker.accepts (w'.check v'.schema s) then some false else none) := by
    apply (walks.check v.schema v'.schema s variants.schema).accepts.bind
    intro a b same
    rw [same]
    exact .refl _
  apply (walks.bisimilar.target variants.schema s.path).bind
  intro a b ends
  cases ends with
  | undefined name => exact .pure rfl
  | @node x y m n types nodes =>
      obtain ⟨shape, metadata⟩ := m
      obtain ⟨shape', metadata'⟩ := n
      obtain ⟨-, shapes⟩ := nodes
      dsimp only at shapes ⊢
      cases shapes
      case record fields =>
        cases s.entries? with
        | none => exact tried
        | some entries =>
            dsimp only
            rw [hasRequired_congr fields, covers_congr fields]
            exact .refl _
      all_goals exact tried

theorem Related.candidates {vs vs' : List (Variant SchemaId)} (walks : w.Related R w')
    (variants : List.Forall₂ (Variant.Related R) vs vs') (s : Site) :
    Alike (List.Forall₂ fun a b => a.1.Related R b.1 ∧ a.2 = b.2) (w.candidates s vs)
      (w'.candidates s vs') := by
  induction variants with
  | nil => exact .pure .nil
  | cons first rest ih =>
      apply (walks.candidate? first s).bind
      intro a b same
      subst same
      apply ih.bind
      intro others others' related
      cases a with
      | none => exact .pure related
      | some covers => exact .pure (.cons ⟨first, rfl⟩ related)

theorem choice?_related {as bs : List (Variant SchemaId × Bool)}
    (related : List.Forall₂ (fun a b => a.1.Related R b.1 ∧ a.2 = b.2) as bs) :
    Option.Rel (Variant.Related R) (choice? as) (choice? bs) := by
  have covering : List.Forall₂ (fun a b => a.1.Related R b.1 ∧ a.2 = b.2) (as.filter (·.2))
      (bs.filter (·.2)) := by
    induction related with
    | nil => exact .nil
    | @cons a b as bs first rest ih =>
        rw [List.filter_cons, List.filter_cons, first.2]
        split
        · exact .cons first ih
        · exact ih
  unfold choice?
  cases related with
  | nil => exact .none
  | @cons a b as bs first rest =>
      cases rest with
      | nil => exact .some first.1
      | @cons a' b' as bs second rest =>
          dsimp only
          generalize (a :: a' :: as).filter (·.2) = cs at covering ⊢
          generalize (b :: b' :: bs).filter (·.2) = ds at covering ⊢
          cases covering with
          | nil => exact .none
          | cons covered others =>
              cases others with
              | nil => exact .some covered.1
              | cons _ _ => exact .none

theorem Related.infer (walks : w.Related R w') (unions : u.Related R u') (target : Site) :
    Alike (Option.Rel (Choice.Related R)) (w.infer u target) (w'.infer u' target) := by
  apply (walks.candidates unions.variants target).bind
  intro as bs related
  have chosen := choice?_related related
  generalize choice? as = v at chosen
  generalize choice? bs = v' at chosen
  cases chosen with
  | some variants =>
      dsimp only
      rw [variants.name]
      exact alike_choose unions _ target target.path none
  | none =>
      cases related with
      | nil => exact alike_refuse target.path rfl
      | cons first rest => exact alike_refuse target.path rfl

theorem Related.untagged (walks : w.Related R w') (unions : u.Related R u') (target : Site) :
    Alike (Option.Rel (Choice.Related R)) (w.untagged u target) (w'.untagged u' target) := by
  unfold Walk.untagged
  rw [walks.isLenient, unions.representation]
  split
  · exact walks.infer unions target
  · split <;> exact alike_refuse target.path rfl

theorem Related.byExtension (walks : w.Related R w') (unions : u.Related R u') (s : Site)
    (extension : Option Bytes) :
    Alike (Option.Rel (Choice.Related R)) (w.byExtension u s extension)
      (w'.byExtension u' s extension) := by
  cases extension with
  | none => exact walks.untagged unions s
  | some name => exact alike_choose unions name s (extensionPath s) none

theorem alike_agreed (s : Site) (extension : Option Bytes) (name : Bytes)
    {chosen chosen' : Walker (Option Choice)}
    (alike : Alike (Option.Rel (Choice.Related R)) chosen chosen') :
    Alike (Option.Rel (Choice.Related R)) (agreed s extension name chosen)
      (agreed s extension name chosen') := by
  unfold agreed
  split
  · exact alike_refuse s.path rfl
  · exact alike

theorem namedEntries_congr (unions : u.Related R u') (entries : List (Key × Site)) :
    namedEntries u entries = namedEntries u' entries := by
  simp only [namedEntries, unions.isSome_find?]

theorem Related.external (walks : w.Related R w') (unions : u.Related R u') (s : Site)
    (extension : Option Bytes) :
    Alike (Option.Rel (Choice.Related R)) (w.external u s extension)
      (w'.external u' s extension) := by
  unfold Walk.external
  dsimp only
  rw [namedEntries_congr unions]
  split
  · split
    · exact walks.byExtension unions s extension
    · exact alike_refuse s.path rfl
  · next i name content named =>
    apply alike_agreed s extension name
    exact Alike.bind (.refl _) fun _ _ _ => alike_choose unions name content content.path none
  · exact alike_refuse s.path rfl

theorem alike_withTag (field : Site) {next next' : Bytes → Walker (Option Choice)}
    (alike : ∀ name, Alike (Option.Rel (Choice.Related R)) (next name) (next' name)) :
    Alike (Option.Rel (Choice.Related R)) (withTag field next) (withTag field next') := by
  unfold withTag
  split
  · exact alike _
  · exact alike_refuse field.path rfl

theorem Related.internal (walks : w.Related R w') (unions : u.Related R u') (tag : Bytes) (s : Site)
    (extension : Option Bytes) :
    Alike (Option.Rel (Choice.Related R)) (w.internal u tag s extension)
      (w'.internal u' tag s extension) := by
  unfold Walk.internal
  split
  · exact alike_refuse s.path rfl
  · split
    · exact walks.byExtension unions s extension
    · next field found =>
      apply alike_withTag field
      intro name
      exact alike_agreed s extension name (alike_choose unions name s field.path (some tag))

theorem isNull_congr {shape shape' : Shape SchemaId} (shapes : shape.Related R shape') :
    shape.isNull = shape'.isNull := by
  cases shapes <;> rfl

theorem Related.contentless (walks : w.Related R w') (unions : u.Related R u')
    (content name : Bytes) (s : Site) (tagPath : Path) :
    Alike Eq (w.contentless u content name s tagPath)
      (w'.contentless u' content name s tagPath) := by
  have named := unions.find? name
  unfold Walk.contentless
  generalize u.find? name = v at named
  generalize u'.find? name = v' at named
  cases named with
  | none => exact .report tagPath rfl
  | some variants =>
      apply (walks.bisimilar.follow variants.schema s.path).bind
      intro a b ends
      cases ends with
      | none => exact .pure rfl
      | some related => exact Check.alike_expect _ (isNull_congr related.2.shape) rfl

theorem Related.adjacentNamed (walks : w.Related R w') (unions : u.Related R u')
    (content name : Bytes) (s : Site) (tagPath : Path) :
    Alike (Option.Rel (Choice.Related R)) (w.adjacentNamed u content name s tagPath)
      (w'.adjacentNamed u' content name s tagPath) := by
  unfold Walk.adjacentNamed
  split
  · next part found => exact alike_choose unions name part tagPath none
  · exact (walks.contentless unions content name s tagPath).bind fun _ _ _ => .pure .none

theorem Related.adjacent (walks : w.Related R w') (unions : u.Related R u') (tag content : Bytes)
    (s : Site) (extension : Option Bytes) :
    Alike (Option.Rel (Choice.Related R)) (w.adjacent u tag content s extension)
      (w'.adjacent u' tag content s extension) := by
  unfold Walk.adjacent
  split
  · exact alike_refuse s.path rfl
  · apply Alike.bind (.refl _)
    intro _ _ _
    split
    · next field found =>
      apply alike_withTag field
      intro name
      exact alike_agreed s _ name (walks.adjacentNamed unions content name s field.path)
    · next name absent => exact walks.adjacentNamed unions content name s (extensionPath s)
    · split
      · next part found => exact walks.untagged unions part
      · exact alike_refuse s.path rfl

/-- Related unions choose related variants. -/
theorem Related.dispatch (walks : w.Related R w') (unions : u.Related R u') (s : Site) :
    Alike (Option.Rel (Choice.Related R)) (w.dispatch u s) (w'.dispatch u' s) := by
  unfold Walk.dispatch
  extract_lets named named'
  have alike (extension : Option Bytes) :
      Alike (Option.Rel (Choice.Related R)) (named extension) (named' extension) := by
    unfold named named'
    rw [unions.representation]
    cases u'.representation with
    | tagged => exact walks.byExtension unions s extension
    | external => exact walks.external unions s extension
    | internal tag => exact walks.internal unions tag s extension
    | adjacent tag content => exact walks.adjacent unions tag content s extension
  split
  · exact alike none
  · split
    · exact alike _
    · exact alike_refuse (extensionPath s) rfl

theorem Related.variant {x y : SchemaId} (walks : w.Related R w') (types : R x y)
    (tag : Option Bytes) (s : Site) : Alike Eq (w.variant x tag s) (w'.variant y tag s) := by
  cases tag with
  | none => exact walks.check x y s types
  | some name =>
      apply (walks.bisimilar.follow types s.path).bind
      intro a b ends
      cases ends with
      | none => exact .pure rfl
      | @some m n related =>
          obtain ⟨target, shape, metadata⟩ := m
          obtain ⟨target', shape', metadata'⟩ := n
          obtain ⟨-, -, shapes⟩ := related
          dsimp only at shapes ⊢
          cases shapes
          case record allowsUnknown fields => exact walks.record fields allowsUnknown (some name) s
          case null => exact .refl _
          all_goals exact walks.check x y s types

theorem Related.union (walks : w.Related R w') (unions : u.Related R u') (s : Site) :
    Alike Eq (w.union u s) (w'.union u' s) := by
  apply (walks.dispatch unions s).bind
  intro a b chosen
  cases chosen with
  | none => exact .pure rfl
  | @some c c' choices =>
      have kept : Alike Eq (Walker.select ⟨s.position, u.id, c.variant.schema, c.target⟩)
          (Walker.select ⟨s.position, u'.id, c'.variant.schema, c'.target⟩) :=
        .found rfl rfl rfl ⟨rfl, rfl, rfl⟩
      apply kept.bind
      intro _ _ _
      rw [choices.target, choices.tag]
      exact walks.variant choices.variant.schema c'.tag c'.target

/-- Related types that are no references demand the same of a value. -/
theorem Related.shape {shape shape' : Shape SchemaId} (walks : w.Related R w')
    (shapes : shape.Related R shape') (x y : SchemaId) (s : Site) :
    Alike Eq (w.shape x s shape) (w'.shape y s shape') := by
  cases shapes
  case text | boolean | null | any => exact .refl _
  case integer ranges multipleOf =>
    unfold Walk.shape
    dsimp only
    split
    · exact Check.alike_integer ranges multipleOf _ s.path
    · exact .refl _
  case float ranges divisors =>
    unfold Walk.shape
    dsimp only
    split
    · exact Check.alike_float ranges divisors _ s.path
    · exact .refl _
  case literal values keys => exact Check.alike_expect s.path (values _) rfl
  case record allowsUnknown fields => exact walks.record fields allowsUnknown none s
  case array length isUnique items => exact walks.array items length isUnique s
  case map size keys parts => exact walks.map keys parts size s
  case tuple elements => exact walks.tuple elements s
  case union representation variants =>
    have unions : UnionType.Related R ⟨x, _, representation⟩ ⟨y, _, representation⟩ :=
      ⟨variants, rfl⟩
    exact walks.union unions s
  case reference name => exact .abort rfl

end Walk

/-- The structural passes over a value with related types are alike. -/
theorem Schema.Bisimulation.check {s t : Schema} (bisimilar : s.Bisimulation t R)
    (settings : Settings) (depth : Nat) : ∀ x y (site : Site), R x y →
      Alike Eq (s.check settings depth x site) (t.check settings depth y site) := by
  induction depth with
  | zero => exact fun x y site _ => .report site.path rfl
  | succ depth ih =>
      intro x y site types
      apply (bisimilar.follow types site.path).bind
      intro a b ends
      cases ends with
      | none => exact .pure rfl
      | some related =>
          obtain ⟨-, deprecated, shapes⟩ := related
          dsimp only
          split
          · exact .pure rfl
          · rw [bisimilar.isDeprecated types, deprecated]
            apply Alike.bind (.refl _)
            intro _ _ _
            have walks : Walk.Related R ⟨s, settings.isLenient, s.check settings depth⟩
                ⟨t, settings.isLenient, t.check settings depth⟩ := ⟨bisimilar, rfl, ih⟩
            exact walks.shape shapes _ _ site

end DocSchema
