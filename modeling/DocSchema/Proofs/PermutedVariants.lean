import DocSchema.Proofs.Alike
import DocSchema.Proofs.Corresponding
import DocSchema.Proofs.InferredVariants
import DocSchema.Proofs.ReorderedDocuments

set_option autoImplicit false

namespace DocSchema

/-- Whether two walks found the same, up to what messages say. -/
structure Findings.Agrees (f g : Findings) : Prop extends f.Alike g where
  selections : f.selections = g.selections

namespace Findings.Agrees

variable {f f' g g' : Findings}

theorem refl (f : Findings) : f.Agrees f :=
  ⟨.refl f, rfl⟩

theorem append (first : f.Agrees f') (second : g.Agrees g') : (f ++ g).Agrees (f' ++ g') where
  toAlike := first.toAlike.append second.toAlike
  selections := by simp [first.selections, second.selections]

end Findings.Agrees

namespace Walker

variable {α β : Type}

/-- Whether two walkers both fail, or give one result and find the same up to what messages say. -/
inductive Agrees (x y : Walker α) : Prop
  | failed {e e' : Failure} (left : x.log = .error e) (right : y.log = .error e')
  | found {a : α} {f g : Findings} (left : x.log = .ok (a, f)) (right : y.log = .ok (a, g))
      (findings : f.Agrees g)

namespace Agrees

variable {x y : Walker α}

theorem of_log (same : x.log = y.log) : x.Agrees y := by
  cases logged : x.log with
  | error e => exact .failed logged (same.symm.trans logged)
  | ok found => exact .found logged (same.symm.trans logged) (.refl _)

theorem refl (x : Walker α) : x.Agrees x :=
  of_log rfl

theorem bind {h k : α → Walker β} (first : x.Agrees y) (further : ∀ a, (h a).Agrees (k a)) :
    (x >>= h).Agrees (y >>= k) := by
  cases first with
  | failed left right => exact .failed (log_bind_error left) (log_bind_error right)
  | @found a f g left right findings =>
      cases further a with
      | failed left' right' =>
          exact .failed (log_bind_ok_error left left') (log_bind_ok_error right right')
      | found left' right' findings' =>
          exact .found (log_bind_ok left left') (log_bind_ok right right')
            (findings.append findings')

theorem report (path : Path) {m m' : Mismatch} (kinds : m.kind = m'.kind) :
    (Walker.report path m).Agrees (Walker.report path m') :=
  .found (log_report path m) (log_report path m') ⟨.error kinds false, rfl⟩

/-- Only the logs matter. -/
theorem congr {x' y' : Walker α} (agree : x'.Agrees y') (left : x.log = x'.log)
    (right : y.log = y'.log) :
    x.Agrees y := by
  cases agree with
  | failed first second => exact .failed (left.trans first) (right.trans second)
  | found first second findings => exact .found (left.trans first) (right.trans second) findings

/-- Trials of walks that agree come out the same. -/
theorem accepts {x y : Walker Unit} (agree : x.Agrees y) : x.accepts.Agrees y.accepts := by
  cases agree with
  | failed left right => exact .failed (accepts_error left) (accepts_error right)
  | found left right findings =>
      refine .found (accepts_ok left) ?_ (.refl {})
      rw [findings.isEmpty_errors]
      exact accepts_ok right

end Agrees

def agreeing : Walker.Congruence where
  Rel := Agrees
  refl := .refl
  bind := .bind

end Walker

open Walker (Agrees agreeing)

section Permuted

/-- Whether two types differ in nothing but the order of the variants, whose names are distinct. -/
inductive Shape.Permutes : Shape SchemaId → Shape SchemaId → Prop
  | refl (shape : Shape SchemaId) : Permutes shape shape
  | union {variants variants' : List (Variant SchemaId)} {representation : Representation}
      (perm : variants.Perm variants') (distinct : (variants.map (·.name)).Nodup) :
      Permutes (.union variants representation) (.union variants' representation)

/-- Whether two unions differ in nothing but the order of the variants, whose names are distinct
then. -/
structure UnionType.Permutes (u u' : UnionType) : Prop where
  id : u.id = u'.id
  representation : u.representation = u'.representation
  variants : u.variants = u'.variants ∨
    u.variants.Perm u'.variants ∧ (u.variants.map (·.name)).Nodup

/-- A name is that of the same variant. -/
theorem UnionType.Permutes.find? {u u' : UnionType} (unions : u.Permutes u') (name : Bytes) :
    u.find? name = u'.find? name := by
  rcases unions.variants with same | ⟨perm, distinct⟩
  · unfold UnionType.find?
    rw [same]
  have distinct' : (u'.variants.map (·.name)).Nodup := (perm.map _).nodup_iff.1 distinct
  cases found : u.find? name with
  | some v =>
      have named : v.name = name := by simpa using List.find?_some found
      have member := perm.mem_iff.1 (List.mem_of_find?_eq_some found)
      rw [← named, UnionType.find?_of_mem distinct' member]
  | none =>
      cases found' : u'.find? name with
      | none => rfl
      | some v =>
          have named : v.name = name := by simpa using List.find?_some found'
          have member := perm.mem_iff.2 (List.mem_of_find?_eq_some found')
          rw [← named, UnionType.find?_of_mem distinct member] at found
          cases found

/-- Whether two types of schemas differ in nothing but the order of the variants. -/
structure SchemaNode.Permutes (m n : SchemaNode) : Prop where
  shape : m.shape.Permutes n.shape
  metadata : m.metadata = n.metadata

theorem Shape.Permutes.isNull {shape shape' : Shape SchemaId} (shapes : shape.Permutes shape') :
    shape.isNull = shape'.isNull := by
  cases shapes <;> rfl

end Permuted

namespace Schema

/-- Whether two schemas differ in nothing but the order of the variants of unions. -/
structure PermutesVariants (s t : Schema) : Prop where
  size : s.size = t.size
  nodes : ∀ id, Option.Rel SchemaNode.Permutes (s.node? id) (t.node? id)
  types : s.types = t.types

namespace PermutesVariants

variable {s t : Schema} (same : s.PermutesVariants t)
include same

theorem isDeprecated (id : SchemaId) : s.isDeprecated id = t.isDeprecated id := by
  unfold Schema.isDeprecated
  rcases eq_of_rel (same.nodes id) with ⟨left, right⟩ | ⟨m, n, left, right, nodes⟩
  · rw [left, right]
  · rw [left, right, Option.any_some, Option.any_some, nodes.metadata]

theorem corresponds : s.Corresponds SchemaNode.Permutes t where
  size := same.size
  nodes := same.nodes
  types := same.types
  references m n nodes name := by
    obtain ⟨shape, metadata⟩ := m
    obtain ⟨shape', metadata'⟩ := n
    cases nodes.shape with
    | refl => exact Iff.rfl
    | union perm distinct => exact ⟨nofun, nofun⟩

theorem followed {α : Type} {h k : Option (SchemaId × SchemaNode) → Walker α} (id : SchemaId)
    (path : Path) (none : (h none).Agrees (k none))
    (node : ∀ target m n, m.Permutes n → (h (some (target, m))).Agrees (k (some (target, n)))) :
    (Walker.follow s id path >>= h).Agrees (Walker.follow t id path >>= k) :=
  same.corresponds.followed (r := agreeing) id path none node

end PermutesVariants

end Schema

namespace Walk

variable {w w' : Walk} {u u' : UnionType}

section Check

/-- Walks that agree one level below agree about the trials of a variant. -/
theorem candidate?_agrees (same : w.schema.PermutesVariants w'.schema)
    (check : ∀ id s, (w.check id s).Agrees (w'.check id s)) (s : Site) (v : Variant SchemaId) :
    (w.candidate? s v).Agrees (w'.candidate? s v) := by
  have tried : Agrees
      (do return if ← Walker.accepts (w.check v.schema s) then some false else none)
      (do return if ← Walker.accepts (w'.check v.schema s) then some false else none) :=
    (check v.schema s).accepts.bind fun _ => .refl _
  refine same.corresponds.target (r := agreeing) v.schema s.path (fun _ => .refl _)
    fun target m n nodes => ?_
  obtain ⟨shape, metadata⟩ := m
  obtain ⟨shape', metadata'⟩ := n
  have shapes : shape.Permutes shape' := nodes.shape
  dsimp only
  cases shapes with
  | union perm distinct => exact tried
  | refl =>
      split
      · exact .refl _
      · exact tried

theorem candidates_agree (same : w.schema.PermutesVariants w'.schema)
    (check : ∀ id s, (w.check id s).Agrees (w'.check id s)) (s : Site)
    (vs : List (Variant SchemaId)) :
    (w.candidates s vs).Agrees (w'.candidates s vs) := by
  induction vs with
  | nil => exact .refl _
  | cons v vs ih =>
      exact (candidate?_agrees same check s v).bind fun _ => ih.bind fun _ => .refl _

theorem triesAlike_of_agrees {s t : Site} {v : Variant SchemaId}
    (agree : (w.candidate? s v).Agrees (w'.candidate? t v)) :
    TriesAlike w w' s t v ∧ TriesAlike w' w t s v := by
  constructor
  · intro found f logged
    cases agree with
    | failed left right => cases logged.symm.trans left
    | found left right findings =>
        cases logged.symm.trans left
        exact ⟨_, right⟩
  · intro found f logged
    cases agree with
    | failed left right => cases logged.symm.trans right
    | found left right findings =>
        cases logged.symm.trans right
        exact ⟨_, left⟩

/-- The candidates in another order are as many, and the same one is chosen. -/
theorem candidates_permuted (same : w.schema.PermutesVariants w'.schema)
    (check : ∀ id s, (w.check id s).Agrees (w'.check id s)) (s : Site)
    (perm : u.variants.Perm u'.variants) (distinct : (u.variants.map (·.name)).Nodup) :
    (∃ e e', (w.candidates s u.variants).log = .error e ∧
      (w'.candidates s u'.variants).log = .error e') ∨
      ∃ found found', (w.candidates s u.variants).log = .ok (found, {}) ∧
        (w'.candidates s u'.variants).log = .ok (found', {}) ∧ choice? found = choice? found' ∧
        found.isEmpty = found'.isEmpty := by
  have tries (v : Variant SchemaId) := triesAlike_of_agrees (candidate?_agrees same check s v)
  have nodup := nodup_variants distinct
  have nodup' := perm.nodup_iff.1 nodup
  rcases w.candidates_cases s nodup with
    ⟨e, ⟨before, v, after, split, -, fails⟩, failed⟩ | ⟨ends, found, logged, all⟩
  · rcases w'.candidates_cases s nodup' with ⟨e', -, failed'⟩ | ⟨ends', -⟩
    · exact .inl ⟨e, e', failed, failed'⟩
    · have member : v ∈ u'.variants := perm.mem_iff.1 (by simp [split])
      exact absurd fails (((tries v).2.tells (ends' v member)).1 e)
  · rcases w'.candidates_cases s nodup' with ⟨e', ⟨before, v, after, split, -, fails⟩, -⟩ | ⟨-, found', logged', all'⟩
    · have member : v ∈ u.variants := perm.mem_iff.2 (by simp [split])
      exact absurd fails (((tries v).1.tells (ends v member)).1 e')
    refine .inr ⟨found, found', logged, logged', ?_, ?_⟩
    · apply Option.ext
      intro v
      rw [choice?_eq_some_iff all nodup, choice?_eq_some_iff all' nodup']
      exact infers_congr perm ends (fun v _ => (tries v).1) v
    · have listed (v : Variant SchemaId) : v ∈ found.map (·.1) ↔ v ∈ found'.map (·.1) := by
        rw [all.mem, all'.mem, perm.mem_iff]
        refine and_congr_right fun member => ?_
        have member := perm.mem_iff.2 member
        exact ((tries v).1.tells (ends v member)).2.1
      rw [Bool.eq_iff_iff, List.isEmpty_iff, List.isEmpty_iff]
      have same : found.map (·.1) = [] ↔ found'.map (·.1) = [] := by
        rw [List.eq_nil_iff_forall_not_mem, List.eq_nil_iff_forall_not_mem]
        exact forall_congr' fun v => not_congr (listed v)
      rwa [List.map_eq_nil_iff, List.map_eq_nil_iff] at same

/-- What is done with the candidates depends on whether there are any and on the one that is
chosen. -/
theorem decided_agrees (unions : u.Permutes u') (s : Site)
    {found found' : List (Variant SchemaId × Bool)}
    (chosen : choice? found = choice? found') (empty : found.isEmpty = found'.isEmpty) :
    Agrees (match choice? found with
      | some v => choose u v.name s s.path none
      | none =>
        if found.isEmpty then refuse s.path .noneMatched
        else refuse s.path (.severalMatched (found.map (·.1.name))))
      (match choice? found' with
      | some v => choose u' v.name s s.path none
      | none =>
        if found'.isEmpty then refuse s.path .noneMatched
        else refuse s.path (.severalMatched (found'.map (·.1.name)))) := by
  rw [chosen, empty]
  cases choice? found' with
  | some v =>
      dsimp only
      unfold choose
      rw [unions.find?]
      exact .refl _
  | none =>
      dsimp only
      split
      · exact .refl _
      · exact Agrees.bind (.report s.path rfl) fun _ => .refl _

theorem infer_agrees (same : w.schema.PermutesVariants w'.schema)
    (check : ∀ id s, (w.check id s).Agrees (w'.check id s)) (unions : u.Permutes u') (s : Site) :
    (w.infer u s).Agrees (w'.infer u' s) := by
  rcases unions.variants with identical | ⟨perm, distinct⟩
  · refine Agrees.bind ?_ fun found => decided_agrees unions s rfl rfl
    rw [identical]
    exact candidates_agree same check s u'.variants
  · rcases candidates_permuted same check s perm distinct with
      ⟨e, e', left, right⟩ | ⟨found, found', left, right, chosen, empty⟩
    · exact .failed (Walker.log_bind_error left) (Walker.log_bind_error right)
    · exact (decided_agrees unions s chosen empty).congr (Walker.log_bind_of_log left _)
        (Walker.log_bind_of_log right _)

end Check

/-- Whether two walks differ in nothing but the order of the variants, and agree one level below. -/
structure Permuted (w w' : Walk) : Prop where
  schemas : w.schema.PermutesVariants w'.schema
  modes : w.isLenient = w'.isLenient
  check : ∀ id s, (w.check id s).Agrees (w'.check id s)

namespace Permuted

variable (walks : w.Permuted w') (unions : u.Permutes u') {s : Site}

include unions in
theorem choose (name : Bytes) (target : Site) (tagPath : Path) (tag : Option Bytes) :
    (Walk.choose u name target tagPath tag).Agrees (Walk.choose u' name target tagPath tag) := by
  unfold Walk.choose
  rw [unions.find?]
  exact .refl _

include unions in
theorem namedEntries (entries : List (Key × Site)) :
    Walk.namedEntries u entries = Walk.namedEntries u' entries := by
  unfold Walk.namedEntries
  simp only [unions.find?]

include walks

theorem record (fields : List (Field SchemaId)) (allowsUnknown : Bool) (tag : Option Bytes)
    (s : Site) :
    (w.record fields allowsUnknown tag s).Agrees (w'.record fields allowsUnknown tag s) := by
  have field (f : Field SchemaId) : (w.field s f).Agrees (w'.field s f) := by
    unfold Walk.field
    split
    · exact walks.check f.schema _
    · exact .refl _
  unfold Walk.record
  split
  · exact .refl _
  · exact Agrees.bind (agreeing.forM field) fun _ => .refl _

theorem array (item : SchemaId) (length : Counts) (isUnique : Bool) (s : Site) :
    (w.array item length isUnique s).Agrees (w'.array item length isUnique s) := by
  unfold Walk.array
  split
  · exact .refl _
  · exact Agrees.bind (.refl _)
      fun _ => Agrees.bind (agreeing.forM (walks.check item)) fun _ => .refl _

theorem key (type : SchemaId) (k : Key) (path : Path) :
    (Check.key w.schema type k path).Agrees (Check.key w'.schema type k path) := by
  refine walks.schemas.followed type path (.refl _) fun target m n nodes => ?_
  obtain ⟨shape, metadata⟩ := m
  obtain ⟨shape', metadata'⟩ := n
  have shapes : shape.Permutes shape' := nodes.shape
  cases shapes with
  | refl => exact .refl _
  | union perm distinct => exact .refl _

theorem map (key value : SchemaId) (size : Counts) (s : Site) :
    (w.map key value size s).Agrees (w'.map key value size s) := by
  unfold Walk.map
  split
  · exact .refl _
  · exact Agrees.bind (.refl _) fun _ => agreeing.forM fun e =>
      Agrees.bind (walks.key key e.1 e.2.path) fun _ => walks.check value e.2

theorem tuple (types : List SchemaId) (s : Site) : (w.tuple types s).Agrees (w'.tuple types s) := by
  unfold Walk.tuple
  split
  · exact .refl _
  · exact Agrees.bind (.refl _) fun _ => agreeing.forM fun e => walks.check e.1 e.2

theorem variant (id : SchemaId) (tag : Option Bytes) (s : Site) :
    (w.variant id tag s).Agrees (w'.variant id tag s) := by
  cases tag with
  | none => exact walks.check id s
  | some name =>
      refine walks.schemas.followed id s.path (.refl _) fun target m n nodes => ?_
      obtain ⟨shape, metadata⟩ := m
      obtain ⟨shape', metadata'⟩ := n
      have shapes : shape.Permutes shape' := nodes.shape
      cases shapes with
      | union perm distinct => exact walks.check id s
      | refl =>
          dsimp only
          split
          · exact walks.record _ _ _ s
          · exact .refl _
          · exact walks.check id s

include unions

theorem untagged (target : Site) : (w.untagged u target).Agrees (w'.untagged u' target) := by
  unfold Walk.untagged
  rw [walks.modes, unions.representation]
  split
  · exact infer_agrees walks.schemas walks.check unions target
  · exact .refl _

theorem byExtension (s : Site) (extension : Option Bytes) :
    (w.byExtension u s extension).Agrees (w'.byExtension u' s extension) := by
  cases extension with
  | none => exact walks.untagged unions s
  | some name => exact choose unions _ _ _ _

theorem external (s : Site) (extension : Option Bytes) :
    (w.external u s extension).Agrees (w'.external u' s extension) := by
  unfold Walk.external
  dsimp only
  rw [namedEntries unions]
  split
  · split
    · exact walks.byExtension unions s extension
    · exact .refl _
  · exact agreed_congruent (r := agreeing)
      (Agrees.bind (.refl _) fun _ => choose unions _ _ _ _) _ _ _
  · exact .refl _

theorem internal (tag : Bytes) (s : Site) (extension : Option Bytes) :
    (w.internal u tag s extension).Agrees (w'.internal u' tag s extension) := by
  unfold Walk.internal
  split
  · exact .refl _
  · split
    · exact walks.byExtension unions s extension
    · exact withTag_congruent (r := agreeing)
        (fun name => agreed_congruent (r := agreeing) (choose unions _ _ _ _) _ _ _) _

theorem adjacentNamed (content name : Bytes) (s : Site) (tagPath : Path) :
    (w.adjacentNamed u content name s tagPath).Agrees
      (w'.adjacentNamed u' content name s tagPath) := by
  unfold Walk.adjacentNamed
  split
  · exact choose unions _ _ _ _
  · refine Agrees.bind ?_ fun _ => .refl _
    unfold Walk.contentless
    rw [unions.find?]
    split
    · exact .refl _
    · refine walks.schemas.followed _ s.path (.refl _) fun target m n nodes => ?_
      dsimp only
      rw [nodes.shape.isNull]
      exact .refl _

theorem adjacent (tag content : Bytes) (s : Site) (extension : Option Bytes) :
    (w.adjacent u tag content s extension).Agrees (w'.adjacent u' tag content s extension) := by
  unfold Walk.adjacent
  split
  · exact .refl _
  · refine Agrees.bind (.refl _) fun _ => ?_
    split
    · exact withTag_congruent (r := agreeing)
        (fun name => agreed_congruent (r := agreeing) (walks.adjacentNamed unions _ _ _ _) _ _ _) _
    · exact walks.adjacentNamed unions _ _ _ _
    · split
      · exact walks.untagged unions _
      · exact .refl _

/-- The choices of a variant agree in every representation. -/
theorem dispatch (s : Site) : (w.dispatch u s).Agrees (w'.dispatch u' s) := by
  unfold Walk.dispatch
  rw [unions.representation]
  extract_lets named named'
  have agree (extension : Option Bytes) : (named extension).Agrees (named' extension) := by
    unfold named named'
    cases u'.representation with
    | tagged => exact walks.byExtension unions s extension
    | external => exact walks.external unions s extension
    | internal tag => exact walks.internal unions tag s extension
    | adjacent tag content => exact walks.adjacent unions tag content s extension
  split
  · exact agree none
  · split
    · exact agree _
    · exact .refl _

theorem union (s : Site) : (w.union u s).Agrees (w'.union u' s) := by
  refine Agrees.bind (walks.dispatch unions s) fun choice => ?_
  cases choice with
  | none => exact .refl _
  | some c =>
      rw [unions.id]
      exact Agrees.bind (.refl _) fun _ => walks.variant c.variant.schema c.tag c.target

omit unions

/-- Walks agree about types that differ in the order of the variants. -/
theorem shape {shape shape' : Shape SchemaId} (shapes : shape.Permutes shape') (id : SchemaId)
    (s : Site) :
    (w.shape id s shape).Agrees (w'.shape id s shape') := by
  cases shapes with
  | @union variants variants' representation perm distinct =>
      have unions : UnionType.Permutes ⟨id, variants, representation⟩
          ⟨id, variants', representation⟩ :=
        ⟨rfl, rfl, .inr ⟨perm, distinct⟩⟩
      exact walks.union unions s
  | refl =>
      cases shape with
      | record fields allowsUnknown => exact walks.record fields allowsUnknown none s
      | array item length isUnique => exact walks.array item length isUnique s
      | map key value size => exact walks.map key value size s
      | tuple elements => exact walks.tuple elements s
      | union variants representation => exact walks.union ⟨rfl, rfl, .inl rfl⟩ s
      | _ => exact .refl _

end Permuted

end Walk

namespace Schema

variable {s t : Schema}

/-- The structural passes agree. -/
theorem check_permuted (same : s.PermutesVariants t) (settings : Settings) (level : Nat) :
    ∀ id site, (s.check settings level id site).Agrees (t.check settings level id site) := by
  induction level with
  | zero => exact fun _ _ => .refl _
  | succ level ih =>
      intro id site
      have walks : (s.walk settings level).Permuted (t.walk settings level) := ⟨same, rfl, ih⟩
      refine same.followed id site.path (.refl _) fun target m n nodes => ?_
      dsimp only
      rw [same.isDeprecated, nodes.metadata]
      split
      · exact .refl _
      · exact Agrees.bind (.refl _) fun _ => walks.shape nodes.shape target site

end Schema

/-- Whether a search for a variant ends, with this variant if any. -/
def Walker.ChoosesVariant (x : Walker (Option Choice)) (chosen : Option (Variant SchemaId)) :
    Prop :=
  ∃ choice f, x.log = .ok (choice, f) ∧ choice.map (·.variant) = chosen

namespace Walk

variable {w w' : Walk} {u u' : UnionType} {s t : Site}

/-- The inference ends with the variant to infer if no trial fails. -/
theorem infer_chooses (distinct : (u.variants.map (·.name)).Nodup)
    (ends : ∀ v ∈ u.variants, ∀ e, ¬ w.FailsTrial s v e) {chosen : Option (Variant SchemaId)}
    (infers : ∀ v, chosen = some v ↔ w.Infers u s v) : (w.infer u s).ChoosesVariant chosen := by
  rcases w.infer_cases u s distinct with
    ⟨e, ⟨before, v, after, split, -, fails⟩, -⟩ | ⟨-, choice, errors, ended, logged⟩
  · have member : v ∈ u.variants := by simp [split]
    exact absurd fails (ends v member e)
  refine ⟨choice, _, logged, ?_⟩
  cases ended with
  | chosen decided => exact ((infers _).2 decided).symm
  | noneMatched absent =>
      cases chosen with
      | none => rfl
      | some v =>
          obtain ⟨member, could⟩ := ((infers v).1 rfl).couldBe
          exact absurd could (absent v member)
  | severalMatched undecided present listed matched =>
      cases chosen with
      | none => rfl
      | some v => exact absurd ((infers v).1 rfl) (undecided v)

/-- There is at most one variant to infer. -/
theorem exists_infers (w : Walk) (u : UnionType) (s : Site) :
    ∃ chosen, ∀ v, chosen = some v ↔ w.Infers u s v := by
  by_cases some : ∃ v, w.Infers u s v
  · obtain ⟨v, infers⟩ := some
    refine ⟨.some v, fun other => ?_⟩
    rw [Option.some_inj]
    constructor
    · rintro rfl
      exact infers
    · intro infers'
      rcases infers with sole | ⟨none, sole⟩ <;> rcases infers' with sole' | ⟨none', sole'⟩
      · exact sole'.unique sole
      · exact absurd sole (none' v)
      · exact absurd sole' (none other)
      · exact sole'.unique sole
  · exact ⟨none, fun v => ⟨fun same => (nomatch same), fun infers => absurd ⟨v, infers⟩ some⟩⟩

/-- Where the trials have the same results, the same variant is chosen. -/
theorem infer_chooses_alike (distinct : (u.variants.map (·.name)).Nodup)
    (perm : u.variants.Perm u'.variants) (ends : ∀ v ∈ u.variants, ∀ e, ¬ w.FailsTrial s v e)
    (alike : ∀ v ∈ u.variants, TriesAlike w w' s t v) {chosen : Option (Variant SchemaId)}
    (infers : ∀ v, chosen = some v ↔ w.Infers u s v) : (w'.infer u' t).ChoosesVariant chosen := by
  apply infer_chooses ((perm.map _).nodup_iff.1 distinct)
  · intro v member
    have member := perm.mem_iff.2 member
    exact ((alike v member).tells (ends v member)).1
  · exact fun v => (infers v).trans (infers_congr perm ends alike v)

end Walk

namespace Schema

variable {schema : Schema} {settings : Settings} {level : Nat}

/-- Trials of a variant on values that are equal but for the order of entries have the same
result. -/
theorem triesAlike_of_mirrors {root root' : Value} {s t : Site} (mirrors : s.Mirrors root root' t)
    (v : Variant SchemaId) :
    Walk.TriesAlike (schema.walk settings level) (schema.walk settings level) s t v := by
  intro found f logged
  have walk : (schema.walk settings level).IsMirrored root root' :=
    schema.walk_isMirrored fun id s t => schema.check_mirrors settings level id s t
  cases walk.candidate? mirrors v with
  | failed left right => cases logged.symm.trans left
  | found left right same findings =>
      cases logged.symm.trans left
      subst same
      exact ⟨_, right⟩

/-- Trials of a variant do not depend on the order in which unions list their variants. -/
theorem triesAlike_of_permuted {t : Schema} (same : schema.PermutesVariants t) (s : Site)
    (v : Variant SchemaId) :
    Walk.TriesAlike (schema.walk settings level) (t.walk settings level) s s v :=
  (Walk.triesAlike_of_agrees (Walk.candidate?_agrees same (check_permuted same settings level) s v)).1

end Schema

/-- Points in the plane and in space, of which the third coordinate may be left out, and numbers. -/
private def points : Schema where
  nodes := #[⟨.integer {} none, {}⟩, ⟨.record [⟨"x", 0, false⟩, ⟨"y", 0, false⟩] false, {}⟩,
    ⟨.record [⟨"x", 0, false⟩, ⟨"y", 0, false⟩, ⟨"z", 0, true⟩] false, {}⟩,
    ⟨.union [⟨"plane", 1⟩, ⟨"number", 0⟩, ⟨"space", 2⟩] .tagged, {}⟩]

private def corner : Site where
  value := .of (.map [(.ident "x", .of (.primitive (.int 1))),
    (.ident "y", .of (.primitive (.int 2))),
    (.ident "z", .of (.primitive .null))])

end DocSchema
