import DocSchema.Proofs.Fitting
import DocSchema.Proofs.Independence

set_option autoImplicit false

namespace DocSchema

/-- The expression for the type of all primitives of one kind. -/
def Primitive.type : Primitive → TypeExpression
  | .null => .null
  | .bool _ => .boolean
  | .int _ => .integer
  | .float _ => .float
  | .text _ => .text

namespace Value

/-- Whether a value says of all that is in it what it is: a leaf that is no type expression names
its kind or `any`, an array of primitives names theirs, and maps and tuples hold values that do
so. -/
inductive IsSelfDescribing : Value → Prop
  | leaf {p : Primitive} {held : Value} {e : TypeExpression} (data : p.IsData)
      (names : held.textContent?.bind TypeExpression.parse? = some e)
      (own : e = p.type ∨ e = .any) :
      IsSelfDescribing (.node (.primitive p) [(Directive.type.name, held)])
  | array {vs : List Value} {name : Text} {kind : Primitive}
      (names : TypeExpression.parse? name.content = some kind.type)
      (items : ∀ v ∈ vs, ∃ p : Primitive, p.type = kind.type ∧ v = .of (.primitive p)) :
      IsSelfDescribing (.node (.array vs) [(Directive.array.name, .of (.primitive (.text name)))])
  | map {es : List (Key × Value)} (nonempty : es ≠ [])
      (named : ∀ e ∈ es, e.1.spelling?.isSome = true)
      (distinct : (es.map (·.1.spelling?)).Nodup) (parts : ∀ e ∈ es, IsSelfDescribing e.2) :
      IsSelfDescribing (.node (.map es) [])
  | tuple {vs : List Value} (nonempty : vs ≠ []) (parts : ∀ v ∈ vs, IsSelfDescribing v) :
      IsSelfDescribing (.node (.tuple vs) [])

namespace IsSelfDescribing

variable {v : Value}

/-- The extensions of a value that describes itself: none, or the one that names a type. -/
theorem extensions (described : v.IsSelfDescribing) :
    v.extensions = [] ∨ ∃ a held, (a = .type ∨ a = .array) ∧
      v.extensions = [(Directive.name a, held)] := by
  cases described with
  | leaf => exact .inr ⟨.type, _, .inl rfl, rfl⟩
  | array => exact .inr ⟨.array, _, .inr rfl, rfl⟩
  | map | tuple => exact .inl rfl

theorem isDeclared (described : v.IsSelfDescribing) : v.isDeclared = true := by
  induction described with
  | leaf | array => rfl
  | @map es nonempty named distinct parts ih =>
      obtain ⟨e, es, rfl⟩ := List.exists_cons_of_ne_nil nonempty
      have first := ih e List.mem_cons_self
      simp [Value.isDeclared, isDeclaredContent, isDeclaredEntries, first]
  | @tuple vs nonempty parts ih =>
      obtain ⟨v, vs, rfl⟩ := List.exists_cons_of_ne_nil nonempty
      have first := ih v List.mem_cons_self
      simp [Value.isDeclared, isDeclaredContent, isDeclaredList, first]

/-- Only a type is declared: no options, and no types besides. -/
theorem directive?_eq_none (described : v.IsSelfDescribing) {a : Directive}
    (other : a ≠ .type ∧ a ≠ .array) :
    v.directive? a = none := by
  rw [directive?, extension?, Node.extension?, root]
  rcases described.extensions with none | ⟨b, held, rfl | rfl, single⟩
  · rw [none]
    rfl
  · rw [single]
    revert other
    cases a <;> simp <;> rfl
  · rw [single]
    revert other
    cases a <;> simp <;> rfl

end IsSelfDescribing

end Value

namespace Declaration

/-- Whether a type demands of a value what it is, and the types below it of the parts what they are.
Nothing else is said about the type. -/
inductive Describes : Declaration → Value → Prop
  | intro {origin : Path} {shape : Shape Declaration} {v : Value} {R : Declaration → Value → Prop}
      (fits : shape.Fits R v) (below : ∀ d part, R d part → Describes d part) :
      Describes (.node origin shape {}) v

variable {read : Reader} {v : Value} {path : Path} {placement : Placement}
  {shape : Shape Declaration}

theorem describes_leaf (origin : Path) {p : Primitive} {e : TypeExpression}
    (own : e = p.type ∨ e = .any)
    (x : List (Bytes × Value)) :
    Describes (.node origin (ofExpression e) {}) (.node (.primitive p) x) := by
  have nothing : ∀ (d : Declaration) (part : Value), False → d.Describes part :=
    fun _ _ demanded => demanded.elim
  rcases own with rfl | rfl
  · cases p with
    | null => exact .intro (.null x) nothing
    | bool b => exact .intro (.boolean b x) nothing
    | int i => exact .intro (.integer i x) nothing
    | float f => exact .intro (.float f x) nothing
    | text t => exact .intro (.text t x) nothing
  · exact .intro (.any _) nothing

/-- A reader that describes a value on its own. -/
def Reader.Describes (read : Reader) (v : Value) : Prop :=
  ∀ path placement, ∃ d, read v path placement = .ok d ∧ d.Describes v

theorem readWith_of_base {origin : Path}
    (plain : v.extensions = [] ∨
      ∃ a held, (a = .type ∨ a = .array) ∧ v.extensions = [(Directive.name a, held)])
    (based : base read v path placement = .ok (origin, shape)) :
    readWith read v path placement = .ok (.node origin shape {}) := by
  have applied : Constraint.applyAll path shape v.extensions = .ok shape := by
    rcases plain with none | ⟨a, held, rfl | rfl, single⟩
    · rw [none, Constraint.applyAll]
    · rw [single]
      rfl
    · rw [single]
      rfl
  have noted : Metadata.noteAll placement path {} v.extensions = .ok {} := by
    rcases plain with none | ⟨a, held, rfl | rfl, single⟩
    · rw [none, Metadata.noteAll]
    · rw [single]
      rfl
    · rw [single]
      rfl
  simp only [readWith, based, applied, noted, bind, Except.bind, pure, Except.pure]

theorem ofTypeDirective_eq (path : Path) {held : Value} {e : TypeExpression}
    (names : held.textContent?.bind TypeExpression.parse? = some e) :
    ofTypeDirective path held = .ok (bare path (ofExpression e)) := by
  obtain ⟨text, found, parsed⟩ := Option.bind_eq_some_iff.1 names
  obtain ⟨c, x⟩ := held
  cases c with
  | tuple vs => cases found
  | _ => simp only [ofTypeDirective, found, parsed]

theorem base_unannotated (none : v.extensions = [])
    (typed : unannotated read v path placement = .ok shape) :
    base read v path placement = .ok (path, shape) := by
  have directives :
      (Directive.base.filterMap fun a => (v.directive? a).map fun held => (a, held)) = [] := by
    simp only [Value.directive?, Value.extension?, Node.extension?, Value.root, none]
    rfl
  rw [base, directives]
  dsimp only
  rw [typed]
  rfl

theorem base_annotated {a : Directive} {held : Value} (names : a = .type ∨ a = .array)
    (single : v.extensions = [(a.name, held)]) (plain : v.content.typeExpression? = none) :
    base read v path placement = annotated read v a held path := by
  have directives : (Directive.base.filterMap fun a => (v.directive? a).map fun held => (a, held)) =
      [(a, held)] := by
    simp only [Value.directive?, Value.extension?, Node.extension?, Value.root, single]
    rcases names with rfl | rfl <;> rfl
  rw [base, directives]
  dsimp only
  rw [plain]

/-- Under `$array` only a text without a language tag is a type expression. Any other lets the items
be anything. -/
theorem readTo_text (depth : Nat) (path : Path) (placement : Placement) {name : Text}
    {e : TypeExpression} (names : TypeExpression.parse? name.content = some e) :
    ∃ e', (e' = e ∨ e' = .any) ∧
      readTo (depth + 1) (.of (.primitive (.text name))) path placement =
        .ok (bare path (ofExpression e')) := by
  obtain ⟨content, language⟩ := name
  cases language with
  | implicit =>
      refine ⟨e, .inl rfl, readWith_of_base (.inl rfl) (base_unannotated rfl ?_)⟩
      have reads : (Content.primitive (.text ⟨content, .implicit⟩) : Content Value).typeExpression? = some e := names
      rw [unannotated, Value.of, Value.content, reads]
  | plaintext | named =>
      exact ⟨.any, .inr rfl, readWith_of_base (.inl rfl) (base_unannotated rfl rfl)⟩

theorem recordFields_describes (path : Path) {es : List (Key × Value)}
    (named : ∀ e ∈ es, e.1.spelling?.isSome = true)
    (distinct : (es.map (·.1.spelling?)).Nodup) (parts : ∀ e ∈ es, e.2.IsSelfDescribing)
    (reads : ∀ e ∈ es, read.Describes e.2) (seen : List Bytes)
    (fresh : ∀ e ∈ es, ∀ name ∈ seen, e.1.spelling? ≠ some name) :
    ∃ fields, recordFields read path seen es = .ok fields ∧
      List.Forall₂ (fun f e => e.1.spelling? = some f.name ∧ f.schema.Describes e.2) fields es := by
  induction es generalizing seen with
  | nil => exact ⟨[], rfl, .nil⟩
  | cons e es ih =>
      obtain ⟨key, v⟩ := e
      rw [List.forall_mem_cons] at named parts reads fresh
      rw [List.map_cons, List.nodup_cons] at distinct
      obtain ⟨name, spelled⟩ := Option.isSome_iff_exists.1 named.1
      obtain ⟨d, read, describes⟩ := reads.1 (path ++ [key.segment]) .nested
      have unseen : name ∉ seen := fun taken => fresh.1 name taken spelled
      have required : optionalFlag v (path ++ [key.segment]) = .ok false := by
        rw [optionalFlag, parts.1.directive?_eq_none (by decide)]
      obtain ⟨fields, rest, each⟩ := ih named.2 distinct.2 parts.2 reads.2 (name :: seen) (by
        intro e inside other taken same
        rcases List.mem_cons.1 taken with rfl | before
        · exact distinct.1 (List.mem_map.2 ⟨e, inside, same.trans spelled.symm⟩)
        · exact fresh.2 e inside other before same)
      refine ⟨⟨name, d, false⟩ :: fields, ?_, .cons ⟨spelled, describes⟩ each⟩
      rw [recordFields]
      simp only at spelled read
      simp only [spelled, if_neg unseen, parts.1.isDeclared, if_true, read, required, rest, bind,
        Except.bind, pure, Except.pure]

theorem tupleElements_describes (path : Path) {vs : List Value}
    (parts : ∀ v ∈ vs, v.IsSelfDescribing) (reads : ∀ v ∈ vs, read.Describes v) (index : UInt8) :
    ∃ elements, tupleElements read path index vs = .ok elements ∧
      List.Forall₂ Describes elements vs := by
  induction vs generalizing index with
  | nil => exact ⟨[], rfl, .nil⟩
  | cons v vs ih =>
      rw [List.forall_mem_cons] at parts reads
      obtain ⟨d, read, describes⟩ := reads.1 (path ++ [.tuple index]) .nested
      obtain ⟨elements, rest, each⟩ := ih parts.2 reads.2 (index + 1)
      refine ⟨d :: elements, ?_, .cons describes each⟩
      simp only [tupleElements, parts.1.isDeclared, if_true, read, rest, bind, Except.bind, pure,
        Except.pure]

/-- Whether the shape that a value declares describes it, before options and annotations. -/
def BaseDescribes (read : Reader) (v : Value) (path : Path) (placement : Placement) : Prop :=
  ∃ origin shape, base read v path placement = .ok (origin, shape) ∧
    Describes (.node origin shape {}) v

theorem base_leaf {p : Primitive} {held : Value} {e : TypeExpression} (data : p.IsData)
    (names : held.textContent?.bind TypeExpression.parse? = some e) (own : e = p.type ∨ e = .any) :
    BaseDescribes read (.node (.primitive p) [(Directive.type.name, held)]) path placement := by
  have typed := ofTypeDirective_eq (path ++ [.ext Directive.type.name]) names
  have plain : (Value.node (.primitive p) [(Directive.type.name, held)]).content.typeExpression? =
      none :=
    data
  refine ⟨path ++ [.ext Directive.type.name], ofExpression e, ?_, describes_leaf _ own _⟩
  rw [base_annotated (.inl rfl) rfl plain, annotated, typed]
  rfl

theorem base_array (depth : Nat) {vs : List Value} {name : Text} {kind : Primitive}
    (names : TypeExpression.parse? name.content = some kind.type)
    (items : ∀ v ∈ vs, ∃ p : Primitive, p.type = kind.type ∧ v = .of (.primitive p)) :
    BaseDescribes (readTo (depth + 1))
      (.node (.array vs) [(Directive.array.name,
        .of (.primitive (.text name)))]) path placement := by
  obtain ⟨e, own, read⟩ := readTo_text depth (path ++ [.ext Directive.array.name]) .nested names
  refine ⟨path, .array (bare (path ++ [.ext Directive.array.name]) (ofExpression e)) {} false, ?_,
    ?_⟩
  · rw [base_annotated (.inr rfl) rfl rfl, annotated, read]
    rfl
  · refine .intro (R := Describes) (.array (describes_leaf _ own []) (fun v inside => ?_) _)
      fun _ _ describes => describes
    obtain ⟨p, same, rfl⟩ := items v inside
    exact describes_leaf _ (same ▸ own) []

theorem base_map {es : List (Key × Value)} (whole : (Value.node (.map es) []).IsSelfDescribing)
    (named : ∀ e ∈ es, e.1.spelling?.isSome = true) (distinct : (es.map (·.1.spelling?)).Nodup)
    (parts : ∀ e ∈ es, e.2.IsSelfDescribing) (reads : ∀ e ∈ es, read.Describes e.2) :
    BaseDescribes read (.node (.map es) []) path placement := by
  obtain ⟨fields, found, each⟩ :=
    recordFields_describes path named distinct parts reads [] (by simp)
  have policy : unknownFieldsPolicy (.node (.map es) []) path = .ok false := by
    rw [unknownFieldsPolicy, whole.directive?_eq_none (by decide)]
  have names : (fields.map (·.name)).Nodup := by
    have same : fields.map (fun f => some f.name) = es.map (·.1.spelling?) :=
      List.forall₂_eq_eq_eq ▸ (List.forall₂_map_left_iff.2 (List.forall₂_map_right_iff.2
        (each.imp fun {f e} related => related.1.symm)))
    rw [← same] at distinct
    exact List.Nodup.of_map some (by rwa [List.map_map])
  have typed : unannotated read (.node (.map es) []) path placement =
      .ok (.record fields false) := by
    simp only [unannotated, Value.content, Content.typeExpression?, whole.isDeclared, or_true,
      if_true, found, policy, bind, Except.bind, pure, Except.pure]
  exact ⟨path, .record fields false, base_unannotated rfl typed,
    .intro (R := Describes) (.record each names _) fun _ _ describes => describes⟩

theorem base_tuple {vs : List Value} (whole : (Value.node (.tuple vs) []).IsSelfDescribing)
    (parts : ∀ v ∈ vs, v.IsSelfDescribing) (reads : ∀ v ∈ vs, read.Describes v) :
    BaseDescribes read (.node (.tuple vs) []) path placement := by
  obtain ⟨elements, found, each⟩ := tupleElements_describes path parts reads 0
  have typed : unannotated read (.node (.tuple vs) []) path placement = .ok (.tuple elements) := by
    simp only [unannotated, Value.content, Content.typeExpression?, whole.isDeclared, if_true,
      found, bind, Except.bind, pure, Except.pure]
  exact ⟨path, .tuple elements, base_unannotated rfl typed,
    .intro (R := Describes) (.tuple each _) fun _ _ describes => describes⟩

/-- What a value that describes itself declares describes it. -/
theorem readTo_describes (depth : Nat) (v : Value) (described : v.IsSelfDescribing)
    (enough : v.size ≤ depth) :
    Reader.Describes (readTo depth) v := by
  induction depth generalizing v with
  | zero => exact absurd enough (Nat.not_le.2 v.size_pos)
  | succ depth ih =>
      have parts (part : Value) (inside : part ∈ v.root.parts) (described : part.IsSelfDescribing) :
          Reader.Describes (readTo depth) part := by
        have less := Value.size_lt_of_mem_parts inside
        exact ih part described (by omega)
      intro path placement
      have based : BaseDescribes (readTo depth) v path placement := by
        have whole := described
        cases described with
        | leaf data names own => exact base_leaf data names own
        | @array vs name kind names items =>
            -- the text that names the type of the items is read one level below
            have positive := Value.size_pos (.of (.primitive (.text name)))
            obtain ⟨below, rfl⟩ : ∃ below, depth = below + 1 := ⟨depth - 1, by
              simp only [Value.size, Value.sizeItems] at enough
              omega⟩
            exact base_array below names items
        | map nonempty named distinct described =>
            exact base_map whole named distinct described fun e inside =>
              parts e.2 (List.mem_append_left _ (List.mem_map_of_mem inside)) (described e inside)
        | tuple nonempty described =>
            exact base_tuple whole described fun v inside =>
              parts v (List.mem_append_left _ inside) (described v inside)
      obtain ⟨origin, shape, found, describes⟩ := based
      exact ⟨_, readWith_of_base described.extensions found, describes⟩

end Declaration

end DocSchema
