import DocSchema.Proofs.Resembling

set_option autoImplicit false

namespace DocSchema

/-- A relation that each walker has to itself and that sequencing keeps. -/
structure Walker.Congruence where
  Rel {α : Type} : Walker α → Walker α → Prop
  refl {α : Type} (x : Walker α) : Rel x x
  bind {α β : Type} {x y : Walker α} {h k : α → Walker β} (first : Rel x y)
    (further : ∀ a, Rel (h a) (k a)) :
    Rel (x >>= h) (y >>= k)

theorem Walker.Congruence.forM (r : Walker.Congruence) {α : Type} {items : List α}
    {h k : α → Walker Unit}
    (each : ∀ a, r.Rel (h a) (k a)) : r.Rel (items.forM h) (items.forM k) := by
  induction items with
  | nil => exact r.refl _
  | cons a items ih => exact r.bind (each a) fun _ => ih

/-- Whether two walks are related where they may differ. What is done with the type at the end of a
chain of references depends on its shape alone, and on no more of a literal than which keys equal
it. -/
structure Walk.Congruent (r : Walker.Congruence) (w w' : Walk) : Prop where
  check : ∀ id s, r.Rel (w.check id s) (w'.check id s)
  follow : ∀ {α : Type} (id : SchemaId) (path : Path)
    (h k : Option (SchemaId × SchemaNode) → Walker α),
    r.Rel (h none) (k none) →
    (∀ target m n, m.shape.Resembles Eq n.shape →
      r.Rel (h (some (target, m))) (k (some (target, n)))) →
    r.Rel (Walker.follow w.schema id path >>= h) (Walker.follow w'.schema id path >>= k)
  untagged : ∀ u target, r.Rel (w.untagged u target) (w'.untagged u target)

namespace Walk

variable {r : Walker.Congruence} {w w' : Walk} {u : UnionType}

theorem agreed_congruent {chosen chosen' : Walker (Option Choice)} (related : r.Rel chosen chosen')
    (s : Site) (extension : Option Bytes) (name : Bytes) :
    r.Rel (agreed s extension name chosen) (agreed s extension name chosen') := by
  unfold agreed
  split
  · exact r.refl _
  · exact related

theorem withTag_congruent {next next' : Bytes → Walker (Option Choice)}
    (related : ∀ name, r.Rel (next name) (next' name)) (field : Site) :
    r.Rel (withTag field next) (withTag field next') := by
  unfold withTag
  split
  · exact related _
  · exact r.refl _

namespace Congruent

variable (walks : w.Congruent r w')
include walks

theorem byExtension (s : Site) (extension : Option Bytes) :
    r.Rel (w.byExtension u s extension) (w'.byExtension u s extension) := by
  cases extension with
  | none => exact walks.untagged u s
  | some name => exact r.refl _

theorem external (s : Site) (extension : Option Bytes) :
    r.Rel (w.external u s extension) (w'.external u s extension) := by
  unfold Walk.external
  dsimp only
  split
  · split
    · exact walks.byExtension s extension
    · exact r.refl _
  · exact r.refl _
  · exact r.refl _

theorem internal (tag : Bytes) (s : Site) (extension : Option Bytes) :
    r.Rel (w.internal u tag s extension) (w'.internal u tag s extension) := by
  unfold Walk.internal
  split
  · exact r.refl _
  · split
    · exact walks.byExtension s extension
    · exact r.refl _

theorem contentless (content name : Bytes) (s : Site) (tagPath : Path) :
    r.Rel (w.contentless u content name s tagPath) (w'.contentless u content name s tagPath) := by
  unfold Walk.contentless
  split
  · exact r.refl _
  · refine walks.follow _ _ _ _ (r.refl _) fun target m n shapes => ?_
    dsimp only
    obtain same | ⟨v, w, left, right, -⟩ := shapes.eq_or_literal
    · rw [same]
      exact r.refl _
    · rw [left, right]
      exact r.refl _

theorem adjacentNamed (content name : Bytes) (s : Site) (tagPath : Path) :
    r.Rel (w.adjacentNamed u content name s tagPath)
      (w'.adjacentNamed u content name s tagPath) := by
  unfold Walk.adjacentNamed
  split
  · exact r.refl _
  · exact r.bind (walks.contentless content name s tagPath) fun _ => r.refl _

theorem adjacent (tag content : Bytes) (s : Site) (extension : Option Bytes) :
    r.Rel (w.adjacent u tag content s extension) (w'.adjacent u tag content s extension) := by
  unfold Walk.adjacent
  split
  · exact r.refl _
  · apply r.bind (r.refl _)
    intro _
    split
    · next field found =>
      exact withTag_congruent (fun name => agreed_congruent (walks.adjacentNamed _ _ _ _) _ _ _) field
    · exact walks.adjacentNamed _ _ _ _
    · split
      · next part found => exact walks.untagged u part
      · exact r.refl _

/-- The choices of a variant are related in every representation. -/
theorem dispatch (u : UnionType) (s : Site) : r.Rel (w.dispatch u s) (w'.dispatch u s) := by
  unfold Walk.dispatch
  extract_lets named named'
  have related (extension : Option Bytes) : r.Rel (named extension) (named' extension) := by
    unfold named named'
    cases u.representation with
    | tagged => exact walks.byExtension s extension
    | external => exact walks.external s extension
    | internal tag => exact walks.internal tag s extension
    | adjacent tag content => exact walks.adjacent tag content s extension
  split
  · exact related none
  · split
    · exact related _
    · exact r.refl _

theorem record (fields : List (Field SchemaId)) (allowsUnknown : Bool) (tag : Option Bytes)
    (s : Site) :
    r.Rel (w.record fields allowsUnknown tag s) (w'.record fields allowsUnknown tag s) := by
  have field (f : Field SchemaId) : r.Rel (w.field s f) (w'.field s f) := by
    unfold Walk.field
    split
    · exact walks.check f.schema _
    · exact r.refl _
  unfold Walk.record
  split
  · exact r.refl _
  · exact r.bind (r.forM field) fun _ => r.refl _

theorem array (item : SchemaId) (length : Counts) (isUnique : Bool) (s : Site) :
    r.Rel (w.array item length isUnique s) (w'.array item length isUnique s) := by
  unfold Walk.array
  split
  · exact r.refl _
  · exact r.bind (r.refl _) fun _ => r.bind (r.forM (walks.check item)) fun _ => r.refl _

theorem map (key value : SchemaId) (size : Counts) (s : Site) :
    r.Rel (w.map key value size s) (w'.map key value size s) := by
  have checked (k : Key) (path : Path) :
      r.Rel (Check.key w.schema key k path) (Check.key w'.schema key k path) := by
    refine walks.follow _ _ _ _ (r.refl _) fun target m n shapes => ?_
    dsimp only
    obtain same | ⟨v, w, left, right, indiscernible⟩ := shapes.eq_or_literal
    · rw [same]
      exact r.refl _
    · rw [left, right, Check.keyShape, Check.keyShape, indiscernible.keys]
      exact r.refl _
  unfold Walk.map
  split
  · exact r.refl _
  · exact r.bind (r.refl _) fun _ => r.forM
      fun e => r.bind (checked e.1 e.2.path) fun _ => walks.check value e.2

theorem tuple (types : List SchemaId) (s : Site) : r.Rel (w.tuple types s) (w'.tuple types s) := by
  unfold Walk.tuple
  split
  · exact r.refl _
  · exact r.bind (r.refl _) fun _ => r.forM fun e => walks.check e.1 e.2

theorem variant (id : SchemaId) (tag : Option Bytes) (s : Site) :
    r.Rel (w.variant id tag s) (w'.variant id tag s) := by
  cases tag with
  | none => exact walks.check id s
  | some name =>
      refine walks.follow _ _ _ _ (r.refl _) fun target m n shapes => ?_
      dsimp only
      obtain same | ⟨v, w, left, right, -⟩ := shapes.eq_or_literal
      · rw [same]
        split
        · exact walks.record _ _ _ s
        · exact r.refl _
        · exact walks.check id s
      · rw [left, right]
        exact walks.check id s

theorem union (u : UnionType) (s : Site) : r.Rel (w.union u s) (w'.union u s) := by
  apply r.bind (walks.dispatch u s)
  intro choice
  cases choice with
  | none => exact r.refl _
  | some c => exact r.bind (r.refl _) fun _ => walks.variant c.variant.schema c.tag c.target

/-- Walks that are related where they may differ are related whatever a type demands. -/
theorem shape (id : SchemaId) (s : Site) (shape : Shape SchemaId) :
    r.Rel (w.shape id s shape) (w'.shape id s shape) := by
  cases shape with
  | record fields allowsUnknown => exact walks.record fields allowsUnknown none s
  | array item length isUnique => exact walks.array item length isUnique s
  | map key value size => exact walks.map key value size s
  | tuple elements => exact walks.tuple elements s
  | union variants representation => exact walks.union ⟨id, variants, representation⟩ s
  | _ => exact r.refl _

end Congruent

end Walk

end DocSchema
