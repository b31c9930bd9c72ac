import DocSchema.Proofs.Declared
import DocSchema.Proofs.SameType

set_option autoImplicit false

namespace DocSchema

/-- Whether a value holds each key once, and no NaN. -/
structure Value.IsTidy (v : Value) : Prop where
  unique : v.HasUniqueKeys
  real : v.IsReal

namespace Value

variable {v w : Value}

theorem IsReal.part (real : v.IsReal) (inside : w ∈ v.root.parts) : w.IsReal := by
  cases real with
  | intro float parts => exact parts w inside

theorem IsReal.number (real : v.IsReal) : ∀ n ∈ v.number?, n.isNaN = false := by
  intro n found
  obtain ⟨p, held, number⟩ := Option.bind_eq_some_iff.1 found
  cases p with
  | int i =>
      cases number
      rfl
  | float x =>
      cases number
      cases real with
      | intro float parts =>
          refine float x ?_
          cases content : v.content <;> rw [content] at held <;> cases held
          rfl
  | _ => cases number

namespace IsTidy

theorem part (tidy : v.IsTidy) (inside : w ∈ v.root.parts) : w.IsTidy :=
  ⟨tidy.unique.part inside, tidy.real.part inside⟩

theorem same (tidy : v.IsTidy) : v.same v = true :=
  Value.same_refl tidy.unique tidy.real

theorem bare (tidy : v.IsTidy) : v.bare.IsTidy := by
  have inside {part : Value} (listed : part ∈ v.bare.root.parts) : part ∈ v.root.parts :=
    mem_parts_content (by simpa [Value.bare, Value.root, Node.parts, Value.content, Value.extensions] using listed)
  constructor
  · refine .intro tidy.unique.entries List.nodup_nil
      fun part listed => tidy.unique.part (inside listed)
  · obtain ⟨-, float, parts⟩ := tidy
    exact .intro float fun part listed => parts part (inside listed)

theorem directive (tidy : v.IsTidy) {a : Directive} (found : v.directive? a = some w) : w.IsTidy :=
  tidy.part (mem_parts_extensions (mem_of_lookup? found))

theorem items (tidy : v.IsTidy) {vs : List Value} (tuple : v.content = .tuple vs) :
    ∀ w ∈ vs, w.IsTidy := by
  intro w member
  exact tidy.part (mem_parts_content (by rw [tuple]; exact member))

theorem elements (tidy : v.IsTidy) {vs : List Value} (array : v.content.array? = some vs) :
    ∀ w ∈ vs, w.IsTidy := by
  intro w member
  refine tidy.part (mem_parts_content ?_)
  cases content : v.content <;> rw [content] at array <;> cases array
  exact member

theorem entries (tidy : v.IsTidy) {es : List (Key × Value)} (map : v.content = .map es) :
    ∀ e ∈ es, e.2.IsTidy := by
  intro e member
  exact tidy.part (mem_parts_content (by rw [map]; exact List.mem_map_of_mem member))

theorem field (tidy : v.IsTidy) {name : Bytes} (found : v.content.field? name = some w) :
    w.IsTidy := by
  obtain ⟨es, map, listed⟩ := Option.bind_eq_some_iff.1 found
  obtain ⟨e, hit, rfl⟩ := Option.map_eq_some_iff.1 listed
  refine tidy.entries ?_ e (List.mem_of_find?_eq_some hit)
  cases content : v.content <;> rw [content] at map <;> cases map
  rfl

end IsTidy

end Value

structure Shape.IsReflexive {α : Type} (s : Shape α) : Prop where
  literal : ∀ v, s = .literal v → v.same v = true
  numbers : ∀ n ∈ s.numbers, n.isNaN = false

def Metadata.IsReflexive (m : Metadata) : Prop :=
  ∀ v ∈ m.values, v.same v = true

inductive Declaration.IsReflexive : Declaration → Prop
  | node {origin : Path} {shape : Shape Declaration} {metadata : Metadata} (own : shape.IsReflexive)
      (said : metadata.IsReflexive) (below : ∀ d ∈ shape.children, d.IsReflexive) :
      (Declaration.node origin shape metadata).IsReflexive

def Shape.IsReflexiveBelow (shape : Shape Declaration) : Prop :=
  shape.IsReflexive ∧ ∀ d ∈ shape.children, d.IsReflexive

namespace Shape

variable {α : Type}

def IsPlain (s : Shape α) : Prop :=
  (∀ v, s ≠ .literal v) ∧ s.numbers = []

theorem IsPlain.isReflexive {s : Shape α} (plain : s.IsPlain) : s.IsReflexive :=
  ⟨fun v same => absurd same (plain.1 v), by simp [plain.2]⟩

end Shape

namespace Constraint

variable {α : Type} {s : Shape α} {v : Value}

theorem number_real (real : v.IsReal) (isInteger : Bool) (requirement : Requirement) :
    Gives (fun n => n.isNaN = false) (number isInteger requirement v) := by
  unfold number
  split
  · next n found =>
    refine .ok ?_
    cases isInteger with
    | true =>
        obtain ⟨i, -, rfl⟩ := Option.map_eq_some_iff.1 found
        rfl
    | false => exact real.number n found
  · exact .error

theorem divisor_real (real : v.IsReal) (isInteger : Bool) :
    Gives (fun n => n.isNaN = false) (divisor isInteger v) :=
  (number_real real isInteger _).bind fun _ real => .ite (fun _ => .ok real) fun _ => .error

private def IsRealRange (r : Range) : Prop :=
  (∀ b ∈ r.min, b.limit.isNaN = false) ∧ ∀ b ∈ r.max, b.limit.isNaN = false

private theorem limits_real {r : Range} : (∀ n ∈ r.limits, n.isNaN = false) ↔ IsRealRange r := by
  simp [Range.limits, IsRealRange, or_imp, forall_and]

theorem pair_real (real : v.IsReal) {a b : Value} (found : v.pair? = some (a, b)) :
    a.IsReal ∧ b.IsReal := by
  unfold Value.pair? at found
  split at found
  · next a' b' tuple =>
    cases found
    exact ⟨real.part (Value.mem_parts_content (by rw [tuple]; exact List.mem_cons_self)),
      real.part (Value.mem_parts_content (by rw [tuple]; exact List.mem_cons_of_mem _ List.mem_cons_self))⟩
  · cases found

theorem narrow_real (real : v.IsReal) (isInteger : Bool) (a : Directive) {r : Range}
    (limits : IsRealRange r) :
    Gives IsRealRange (narrow isInteger a v r) := by
  unfold narrow
  split
  · unfold range
    split
    · exact .error
    · next a b found =>
      obtain ⟨left, right⟩ := pair_real real found
      refine (number_real left isInteger _).bind
        fun min low => (number_real right isInteger _).bind fun max high => ?_
      exact .ok ⟨by simpa using low, by simpa using high⟩
  · exact (number_real real isInteger _).bind fun n low => .ok ⟨by simpa using low, limits.2⟩
  · exact (number_real real isInteger _).bind fun n low => .ok ⟨by simpa using low, limits.2⟩
  · exact (number_real real isInteger _).bind fun n high => .ok ⟨limits.1, by simpa using high⟩
  · exact (number_real real isInteger _).bind fun n high => .ok ⟨limits.1, by simpa using high⟩
  · exact .ok limits

theorem constrainNumber_reflexive (real : v.IsReal) (a : Directive) (own : s.IsReflexive) :
    Gives Shape.IsReflexive (constrainNumber a v s) := by
  cases s
  case integer r m =>
    have narrowed :
        Gives Shape.IsReflexive (do return .integer (← narrow true a v r) m : Except Requirement (Shape α)) :=
      (narrow_real real true a (limits_real.1 own.numbers)).bind fun _ limits =>
        .ok ⟨nofun, limits_real.2 limits⟩
    cases a
    case multipleOf =>
      refine .bind .any fun n _ => ?_
      cases n <;> exact .ok ⟨nofun, own.numbers⟩
    all_goals exact narrowed
  case float r m =>
    have limits : ∀ n ∈ r.limits, n.isNaN = false :=
      fun n member => own.numbers n (List.mem_append_left _ member)
    have divisor : ∀ n ∈ m, n.isNaN = false := fun n member =>
      own.numbers n (List.mem_append_right _ (Option.mem_toList.2 member))
    have reflexive {r : Range} {m : Option Number} (limits : ∀ n ∈ r.limits, n.isNaN = false)
        (divisor : ∀ n ∈ m, n.isNaN = false) : (Shape.float r m : Shape α).IsReflexive :=
      ⟨nofun,
        List.forall_mem_append.2 ⟨limits, fun n member => divisor n (Option.mem_toList.1 member)⟩⟩
    cases a
    case multipleOf =>
      exact (divisor_real real false).bind
        fun n real => .ok (reflexive limits (by simpa using real))
    all_goals
      exact (narrow_real real false _ (limits_real.1 limits)).bind fun _ limits =>
        .ok (reflexive (limits_real.2 limits) divisor)
  all_goals exact .error

theorem constrainText_plain (a : Directive) : Gives Shape.IsPlain (constrainText a v s) := by
  cases s
  case text length pat language =>
    cases a
    case length | minLength | maxLength | pattern | language =>
      exact .bind .any fun _ _ => .bind .any fun _ _ => .ok ⟨nofun, rfl⟩
    all_goals exact .ok ⟨nofun, rfl⟩
  all_goals exact .error

theorem constrainArray_plain (a : Directive) : Gives Shape.IsPlain (constrainArray a v s) := by
  cases s
  case array item length isUnique =>
    cases a
    case minItems | maxItems => exact .bind .any fun _ _ => .bind .any fun _ _ => .ok ⟨nofun, rfl⟩
    case unique => exact .bind .any fun _ _ => .ok ⟨nofun, rfl⟩
    all_goals exact .ok ⟨nofun, rfl⟩
  all_goals exact .error

theorem constrainMap_plain (a : Directive) : Gives Shape.IsPlain (constrainMap a v s) := by
  cases s
  case map key value size =>
    cases a
    case minSize | maxSize => exact .bind .any fun _ _ => .ok ⟨nofun, rfl⟩
    all_goals exact .ok ⟨nofun, rfl⟩
  all_goals exact .error

/-- What a constraint makes of a type that equals itself does so, too. -/
theorem apply_reflexive (real : v.IsReal) (name : Bytes) (own : s.IsReflexive) :
    Gives Shape.IsReflexive (apply name v s) := by
  unfold apply
  split
  · exact .ok own
  · next a named =>
    split
    · exact .ok own
    · exact malformed_gives ((constrainText_plain a).mono fun _ plain => plain.isReflexive)
    · exact malformed_gives (constrainNumber_reflexive real a own)
    · exact malformed_gives ((constrainArray_plain a).mono fun _ plain => plain.isReflexive)
    · exact malformed_gives ((constrainMap_plain a).mono fun _ plain => plain.isReflexive)
    · split
      · exact .ok own
      · exact .error
    · split
      · exact .ok own
      · exact .error

theorem applyAll_reflexive (path : Path) {extensions : List (Bytes × Value)}
    (real : ∀ e ∈ extensions, e.2.IsReal)
    (own : s.IsReflexive) : Gives Shape.IsReflexive (applyAll path s extensions) := by
  induction extensions generalizing s with
  | nil => exact .ok own
  | cons item rest ih =>
      rw [List.forall_mem_cons] at real
      have step := apply_reflexive real.1 item.1 own
      rw [applyAll]
      cases applied : apply item.1 item.2 s with
      | error defect => exact .error
      | ok narrowed => exact ih real.2 (step narrowed applied)

end Constraint

namespace Metadata

theorem note_reflexive (placement : Placement) (name : Bytes) {v : Value} (tidy : v.IsTidy)
    {m : Metadata}
    (said : m.IsReflexive) : Gives IsReflexive (note placement name v m) := by
  have more {n : Metadata} (values : ∀ w ∈ n.values, w ∈ m.values ∨ w.IsTidy) : n.IsReflexive :=
    fun w inside => (values w inside).elim (said w) Value.IsTidy.same
  unfold note
  split
  · split
    · exact .ok said
    · exact .error
  · split
    · exact .ok said
    · exact .error
  · refine .ok (more fun w inside => ?_)
    rcases mem_values.1 inside with default | other
    · exact .inr (Option.some.inj default ▸ tidy)
    · exact .inl (mem_values.2 (.inr other))
  · split
    · next vs array =>
      refine .ok (more fun w inside => ?_)
      rcases mem_values.1 inside with default | listed | kept
      · exact .inl (mem_values.2 (.inl default))
      · rcases List.mem_append.1 listed with before | added
        · exact .inl (mem_values.2 (.inr (.inl before)))
        · exact .inr (tidy.elements array w added)
      · exact .inl (mem_values.2 (.inr (.inr kept)))
    · exact .error
  · exact .ok said
  · refine .ite (fun _ => .ok said) fun _ => .ok (more fun w inside => ?_)
    rcases mem_values.1 inside with default | listed | ⟨e, kept, rfl⟩
    · exact .inl (mem_values.2 (.inl default))
    · exact .inl (mem_values.2 (.inr (.inl listed)))
    · rcases List.mem_append.1 kept with before | added
      · exact .inl (mem_values.2 (.inr (.inr ⟨e, before, rfl⟩)))
      · exact .inr (List.mem_singleton.1 added ▸ tidy)

theorem noteAll_reflexive (placement : Placement) (path : Path) {extensions : List (Bytes × Value)}
    (tidy : ∀ e ∈ extensions, e.2.IsTidy) {m : Metadata} (said : m.IsReflexive) :
    Gives IsReflexive (noteAll placement path m extensions) := by
  induction extensions generalizing m with
  | nil => exact .ok said
  | cons item rest ih =>
      rw [List.forall_mem_cons] at tidy
      have step := note_reflexive placement item.1 tidy.1 said
      rw [noteAll]
      cases noted : note placement item.1 item.2 m with
      | error requirement => exact .error
      | ok m' => exact ih tidy.2 (step m' noted)

end Metadata

namespace Declaration

/-- A type that holds no data and has no type below it. -/
theorem isReflexiveBelow_of_leaf {shape : Shape Declaration} (plain : shape.IsPlain)
    (leaf : shape.children = []) :
    shape.IsReflexiveBelow :=
  ⟨plain.isReflexive, by simp [leaf]⟩

theorem any_isReflexiveBelow : (Shape.any : Shape Declaration).IsReflexiveBelow :=
  isReflexiveBelow_of_leaf ⟨nofun, rfl⟩ rfl

theorem null_isReflexiveBelow : (Shape.null : Shape Declaration).IsReflexiveBelow :=
  isReflexiveBelow_of_leaf ⟨nofun, rfl⟩ rfl

theorem bare_reflexive {path : Path} {shape : Shape Declaration}
    (reflexive : shape.IsReflexiveBelow) :
    (bare path shape).IsReflexive :=
  .node reflexive.1 (by simp [Metadata.IsReflexive, Metadata.values]) reflexive.2

theorem ofExpression_reflexive (e : TypeExpression) : (ofExpression e).IsReflexiveBelow := by
  cases e <;> exact isReflexiveBelow_of_leaf ⟨nofun, rfl⟩ rfl

mutual

theorem ofTypeDirective_reflexive (path : Path) (v : Value) :
    Gives IsReflexive (ofTypeDirective path v) := by
  unfold ofTypeDirective
  split
  · next vs extensions =>
    exact (ofTypeDirectives_reflexive path 0 vs).bind fun ds below =>
      .ok (bare_reflexive ⟨Shape.IsPlain.isReflexive ⟨nofun, rfl⟩, below⟩)
  · split
    · exact .error
    · split
      · next e read => exact .ok (bare_reflexive (ofExpression_reflexive e))
      · exact .error

theorem ofTypeDirectives_reflexive (path : Path) (index : UInt8) (vs : List Value) :
    Gives (fun ds => ∀ d ∈ ds, d.IsReflexive) (ofTypeDirectives path index vs) := by
  cases vs with
  | nil => exact .ok (by simp)
  | cons v vs =>
      exact (ofTypeDirective_reflexive _ v).bind fun d first =>
        (ofTypeDirectives_reflexive path (index + 1) vs).bind fun ds rest =>
          .ok (List.forall_mem_cons.2 ⟨first, rest⟩)

end

/-- Whether a reader reads declarations that equal themselves. -/
def Reader.IsReflexive (read : Reader) : Prop :=
  ∀ v path placement, v.IsTidy → Gives Declaration.IsReflexive (read v path placement)

section Parts

variable {read : Reader} (reads : read.IsReflexive)
include reads

theorem tupleElements_reflexive (path : Path) (index : UInt8) {vs : List Value}
    (tidy : ∀ v ∈ vs, v.IsTidy) :
    Gives (fun ds => ∀ d ∈ ds, d.IsReflexive) (tupleElements read path index vs) := by
  induction vs generalizing index with
  | nil => exact .ok (by simp)
  | cons v vs ih =>
      rw [List.forall_mem_cons] at tidy
      have whole (d : Declaration) (reflexive : d.IsReflexive) :
          Gives (fun ds => ∀ d ∈ ds, d.IsReflexive)
            (do return d :: (← tupleElements read path (index + 1) vs)) :=
        (ih (index + 1) tidy.2).bind fun ds rest => .ok (List.forall_mem_cons.2 ⟨reflexive, rest⟩)
      unfold tupleElements
      dsimp only
      split
      · exact (reads _ _ _ tidy.1).bind whole
      · exact whole _ (bare_reflexive any_isReflexiveBelow)

theorem recordFields_reflexive (path : Path) (seen : List Bytes) {es : List (Key × Value)}
    (tidy : ∀ e ∈ es, e.2.IsTidy) :
    Gives (fun fields => ∀ f ∈ fields, f.schema.IsReflexive) (recordFields read path seen es) := by
  induction es generalizing seen with
  | nil => exact .ok (by simp)
  | cons e es ih =>
      obtain ⟨key, v⟩ := e
      rw [List.forall_mem_cons] at tidy
      rw [recordFields]
      split
      · exact ih seen tidy.2
      · next name spelled =>
        refine .ite (fun _ => .error) fun _ => .ite (fun _ => ?_) fun _ => ih (name :: seen) tidy.2
        exact (reads _ _ _ tidy.1).bind fun d first => .bind .any fun _ _ =>
          (ih (name :: seen) tidy.2).bind
            fun fields rest => .ok (List.forall_mem_cons.2 ⟨first, rest⟩)

theorem unionVariants_reflexive (path : Path) (seen : List Bytes) {es : List (Key × Value)}
    (tidy : ∀ e ∈ es, e.2.IsTidy) :
    Gives (fun variants => ∀ v ∈ variants,
      v.schema.IsReflexive) (unionVariants read path seen es) := by
  induction es generalizing seen with
  | nil => exact .ok (by simp)
  | cons e es ih =>
      obtain ⟨key, v⟩ := e
      rw [List.forall_mem_cons] at tidy
      rw [unionVariants]
      split
      · exact .error
      · next name spelled =>
        refine .ite (fun _ => .error) fun _ => ?_
        have whole (d : Declaration) (reflexive : d.IsReflexive) :
            Gives (fun variants => ∀ v ∈ variants, v.schema.IsReflexive)
              (do return { name, schema := d } :: (← unionVariants read path (name :: seen) es)) :=
          (ih (name :: seen) tidy.2).bind
            fun variants rest => .ok (List.forall_mem_cons.2 ⟨reflexive, rest⟩)
        dsimp only
        split
        · exact whole _ (bare_reflexive null_isReflexiveBelow)
        · exact (reads _ _ _ tidy.1).bind
            fun d reflexive => .ite (fun _ => .error) fun _ => whole d reflexive

theorem union_reflexive (v : Value) {variants : Value} (tidy : variants.IsTidy) (path : Path) :
    Gives Shape.IsReflexiveBelow (union read v variants path) := by
  unfold union
  dsimp only
  split
  · next es map =>
    refine (unionVariants_reflexive reads _ [] (tidy.entries map)).bind fun members below => ?_
    have whole (r : Representation) : (Shape.union members r).IsReflexiveBelow :=
      ⟨Shape.IsPlain.isReflexive ⟨nofun, rfl⟩, by simpa [Shape.children] using below⟩
    refine .ite (fun _ => .error) fun _ => ?_
    split
    · exact .ok (whole _)
    · exact .bind .any fun _ _ => .ok (whole _)
  · exact .error

theorem map_reflexive {declaration : Value} (tidy : declaration.IsTidy) (path : Path) :
    Gives Shape.IsReflexiveBelow (map read declaration path) := by
  unfold map
  split
  · next key value keyed valued =>
    refine (reads _ _ _ (tidy.field keyed)).bind fun key first =>
      (reads _ _ _ (tidy.field valued)).bind
        fun value second => .ok ⟨Shape.IsPlain.isReflexive ⟨nofun, rfl⟩, ?_⟩
    simp [Shape.children, first, second]
  · exact .error

theorem unannotated_reflexive {v : Value} (tidy : v.IsTidy) (path : Path) (placement : Placement) :
    Gives Shape.IsReflexiveBelow (unannotated read v path placement) := by
  have unknown : Gives Shape.IsReflexiveBelow (.ok .any : Extract (Shape Declaration)) :=
    .ok (isReflexiveBelow_of_leaf ⟨nofun, rfl⟩ rfl)
  unfold unannotated
  split
  · next e read => exact .ok (ofExpression_reflexive e)
  · split
    · next vs tuple =>
      refine .ite (fun _ => ?_) fun _ => unknown
      exact (tupleElements_reflexive reads path 0 (tidy.items tuple)).bind fun ds below =>
        .ok ⟨Shape.IsPlain.isReflexive ⟨nofun, rfl⟩, below⟩
    · next es map =>
      refine .ite (fun _ => ?_) fun _ => unknown
      refine (recordFields_reflexive reads path [] (tidy.entries map)).bind
        fun fields below => .bind .any fun _ _ => ?_
      exact .ok ⟨Shape.IsPlain.isReflexive ⟨nofun, rfl⟩, by simpa [Shape.children] using below⟩
    · exact unknown

theorem annotated_reflexive (v : Value) (a : Directive) {held : Value} (tidy : held.IsTidy)
    (path : Path) :
    Gives (fun found => found.2.IsReflexiveBelow) (annotated read v a held path) := by
  unfold annotated
  dsimp only
  split
  · refine (ofTypeDirective_reflexive _ held).bind fun d reflexive => .ok ?_
    cases reflexive with
    | node own said below => exact ⟨own, below⟩
  · refine (reads _ _ _ tidy).bind fun d below => .ok ⟨Shape.IsPlain.isReflexive ⟨nofun, rfl⟩, ?_⟩
    simpa [Shape.children] using below
  · exact (map_reflexive reads tidy _).bind fun shape whole => .ok whole
  · refine .ok ⟨⟨fun w same => ?_, by simp [Shape.numbers]⟩, by simp [Shape.children]⟩
    cases same
    exact tidy.bare.same
  · exact (union_reflexive reads v tidy path).bind fun shape whole => .ok whole

theorem base_reflexive {v : Value} (tidy : v.IsTidy) (path : Path) (placement : Placement) :
    Gives (fun found => found.2.IsReflexiveBelow) (base read v path placement) := by
  unfold base
  split
  · exact (unannotated_reflexive reads tidy path placement).bind fun shape whole => .ok whole
  · next a held only =>
    split
    · have listed : (a, held) ∈ Directive.base.filterMap fun a =>
          (v.directive? a).map fun held => (a, held) := by
        rw [only]
        exact List.mem_cons_self
      obtain ⟨b, -, given⟩ := List.mem_filterMap.1 listed
      obtain ⟨held, found, same⟩ := Option.map_eq_some_iff.1 given
      cases same
      exact annotated_reflexive reads v a (tidy.directive found) path
    · exact .error
  · exact .error

theorem readWith_reflexive (sound : ∀ v path placement, Gives IsSound (read v path placement)) :
    Reader.IsReflexive (readWith read) := by
  intro v path placement tidy
  have based : Gives (fun found => found.2.IsSoundBelow ∧ found.2.IsReflexiveBelow)
      (base read v path placement) :=
    fun found same =>
      ⟨base_sound sound v path placement found same,
        base_reflexive reads tidy path placement found same⟩
  have extensions : ∀ e ∈ v.extensions, e.2.IsTidy :=
    fun e member => tidy.part (Value.mem_parts_extensions member)
  refine based.bind fun found whole => ?_
  obtain ⟨origin, shape⟩ := found
  obtain ⟨⟨sound, -⟩, own, below⟩ := whole
  -- Constraints on a sound type leave the types below it alone.
  have narrowed : Gives (fun s => s.children = shape.children ∧ s.IsReflexive)
      (Constraint.applyAll path shape v.extensions) := fun s same =>
    ⟨(Constraint.applyAll_gives path v.extensions sound s same).2,
      Constraint.applyAll_reflexive path (fun e member => (extensions e member).real) own s same⟩
  refine narrowed.bind fun s kept => ?_
  have said : Metadata.IsReflexive {} := by simp [Metadata.IsReflexive, Metadata.values]
  refine (Metadata.noteAll_reflexive placement path extensions said).bind
    fun m said => .ok (.node kept.2 said ?_)
  rw [kept.1]
  exact below

end Parts

theorem readTo_reflexive (depth : Nat) : Reader.IsReflexive (readTo depth) := by
  induction depth with
  | zero => exact fun _ _ _ _ => .ok (bare_reflexive any_isReflexiveBelow)
  | succ depth ih => exact readWith_reflexive ih (readTo_sound depth)

/-- Whatever a tidy value declares equals itself. -/
theorem ofValue_reflexive : Reader.IsReflexive ofValue :=
  fun v => readTo_reflexive v.size v

end Declaration

end DocSchema
