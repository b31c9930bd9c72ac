import DocSchema.Proofs.Contested
import DocSchema.Proofs.Declaring
import DocSchema.Proofs.TypeOrder

set_option autoImplicit false

namespace DocSchema

namespace Declaration

variable {read : Reader} {v held : Value} {path : Path} {placement : Placement}

/-- Without a base directive a value is read as its content says. -/
theorem base_of_none {typed : Path × Shape Declaration}
    (plain : ∀ a ∈ Directive.base, v.directive? a = none)
    (based : base read v path placement = .ok typed) :
    unannotated read v path placement = .ok typed.2 := by
  have none : (Directive.base.filterMap fun a => (v.directive? a).map fun held => (a, held)) = [] :=
    List.filterMap_eq_nil_iff.2 fun a member => by rw [plain a member]; rfl
  rw [base, none] at based
  obtain ⟨shape, read, same⟩ := bind_eq_ok.1 based
  exact Except.ok.inj same ▸ read

/-- A base directive that is there is the only one, and not on a type expression. -/
theorem base_of_directive {a : Directive} {typed : Path × Shape Declaration}
    (member : a ∈ Directive.base)
    (found : v.directive? a = some held) (based : base read v path placement = .ok typed) :
    annotated read v a held path = .ok typed ∧ v.content.typeExpression? = none := by
  have listed : (a, held) ∈ Directive.base.filterMap fun a =>
      (v.directive? a).map fun held => (a, held) :=
    List.mem_filterMap.2 ⟨a, member, by rw [found]; rfl⟩
  unfold base at based
  split at based
  · next none =>
    rw [none] at listed
    cases listed
  · next b held' only =>
    rw [only] at listed
    cases List.mem_singleton.1 listed
    split at based
    · next noExpression => exact ⟨based, noExpression⟩
    · cases based
  · cases based

/-- The fields are those entries that have a spelling and declare a type. -/
theorem recordFields_eq_ok {seen : List Bytes} {entries : List (Key × Value)}
    {fields : List (Field Declaration)}
    (fielded : recordFields read path seen entries = .ok fields) :
    List.Forall₂ (fun e f => e.1.spelling? = some f.name ∧
        read e.2 (path ++ [e.1.segment]) .nested = .ok f.schema ∧
        optionalFlag e.2 (path ++ [e.1.segment]) = .ok f.isOptional)
      (entries.filter fun e => e.1.spelling?.isSome && e.2.isDeclared) fields := by
  induction entries generalizing seen fields with
  | nil =>
      cases fielded
      exact .nil
  | cons e entries ih =>
      obtain ⟨key, v⟩ := e
      rw [recordFields] at fielded
      cases spelled : key.spelling? with
      | none =>
          rw [spelled] at fielded
          rw [List.filter_cons_of_neg (by simp [spelled])]
          exact ih fielded
      | some name =>
          rw [spelled] at fielded
          dsimp only at fielded
          split at fielded
          · cases fielded
          · split at fielded
            · next declared =>
              simp only [bind_eq_ok] at fielded
              obtain ⟨schema, read, isOptional, flag, rest, further, same⟩ := fielded
              obtain rfl := Except.ok.inj same
              rw [List.filter_cons_of_pos (by simp [spelled, declared])]
              exact .cons ⟨spelled, read, flag⟩ (ih further)
            · next undeclared =>
              rw [List.filter_cons_of_neg (by simp [undeclared])]
              exact ih fielded

theorem unionVariants_eq_ok {seen : List Bytes} {entries : List (Key × Value)}
    {variants : List (Variant Declaration)}
    (members : unionVariants read path seen entries = .ok variants) :
    List.Forall₂ (fun e variant => e.2.content ≠ .primitive .null →
      read e.2 (path ++ [e.1.segment]) .variant = .ok variant.schema) entries variants := by
  induction entries generalizing seen variants with
  | nil =>
      cases members
      exact .nil
  | cons e entries ih =>
      obtain ⟨key, v⟩ := e
      rw [unionVariants] at members
      cases spelled : key.spelling? with
      | none =>
          rw [spelled] at members
          cases members
      | some name =>
          rw [spelled] at members
          dsimp only at members
          split at members
          · cases members
          · split at members
            · next null =>
              obtain ⟨schema, -, members⟩ := bind_eq_ok.1 members
              obtain ⟨rest, further, same⟩ := bind_eq_ok.1 members
              obtain rfl := Except.ok.inj same
              exact .cons (absurd null) (ih further)
            · obtain ⟨declaration, read, members⟩ := bind_eq_ok.1 members
              split at members
              · cases members
              · obtain ⟨schema, made, members⟩ := bind_eq_ok.1 members
                obtain ⟨rest, further, same⟩ := bind_eq_ok.1 members
                obtain rfl := Except.ok.inj same
                exact .cons (fun _ => Except.ok.inj made ▸ read) (ih further)

theorem map_eq_ok {s : Shape Declaration} (made : map read held path = .ok s) :
    ∃ first second key value,
    held.content.field? "key" = some first ∧ held.content.field? "value" = some second ∧
      read first (path ++ [.ident "key"]) .nested = .ok key ∧
      read second (path ++ [.ident "value"]) .nested = .ok value ∧ s = .map key value {} := by
  unfold map at made
  split at made
  · next first second keyed valued =>
    obtain ⟨key, declares, made⟩ := bind_eq_ok.1 made
    obtain ⟨value, declares', same⟩ := bind_eq_ok.1 made
    exact ⟨first, second, key, value, keyed, valued, declares, declares', (Except.ok.inj same).symm⟩
  · cases made

theorem union_eq_ok {s : Shape Declaration} (made : union read v held path = .ok s) :
    ∃ entries variants representation,
    held.content = .map entries ∧
      unionVariants read (path ++ [.ext Directive.variants.name]) [] entries = .ok variants ∧
      s = .union variants representation := by
  unfold union at made
  dsimp only at made
  split at made
  · next entries content =>
    obtain ⟨variants, members, made⟩ := bind_eq_ok.1 made
    refine ⟨entries, variants, ?_⟩
    split at made
    · cases made
    · split at made
      · exact ⟨_, content, members, (Except.ok.inj made).symm⟩
      · obtain ⟨representation, -, same⟩ := bind_eq_ok.1 made
        exact ⟨representation, content, members, (Except.ok.inj same).symm⟩
  · cases made

theorem tupleElements_eq_ok {index : UInt8} {vs : List Value} {elements : List Declaration}
    (made : tupleElements read path index vs = .ok elements) {i : Nat} (found : vs[i]? = some v)
    (declared : v.isDeclared = true) :
    ∃ element ∈ elements,
      read v (path ++ [.tuple (index + UInt8.ofNat i)]) .nested = .ok element := by
  induction vs generalizing index elements i with
  | nil => cases found
  | cons w vs ih =>
      have both : ∃ first rest,
          (w.isDeclared = true → read w (path ++ [.tuple index]) .nested = .ok first) ∧
          tupleElements read path (index + 1) vs = .ok rest ∧ elements = first :: rest := by
        rw [tupleElements] at made
        split at made
        · obtain ⟨first, here, made⟩ := bind_eq_ok.1 made
          obtain ⟨rest, further, same⟩ := bind_eq_ok.1 made
          exact ⟨first, rest, fun _ => here, further, (Except.ok.inj same).symm⟩
        · next undeclared =>
          obtain ⟨first, -, made⟩ := bind_eq_ok.1 made
          obtain ⟨rest, further, same⟩ := bind_eq_ok.1 made
          exact ⟨first, rest, fun declared => absurd declared undeclared, further,
            (Except.ok.inj same).symm⟩
      obtain ⟨first, rest, here, further, rfl⟩ := both
      cases i with
      | zero =>
          obtain rfl : w = v := Option.some.inj found
          refine ⟨first, List.mem_cons_self, ?_⟩
          have start : index + UInt8.ofNat 0 = index := UInt8.add_zero index
          rw [start]
          exact here declared
      | succ i =>
          obtain ⟨element, listed, read⟩ := ih further found
          refine ⟨element, List.mem_cons_of_mem _ listed, ?_⟩
          rw [UInt8.ofNat_add, UInt8.add_comm (UInt8.ofNat i), ← UInt8.add_assoc]
          exact read

end Declaration

namespace Document

variable (d : Document)

/-- Whether a node is read as a record of some entries. -/
structure IsRecord (id : NodeId) (placement : Placement) (entries : List (Key × NodeId)) :
    Prop where
  content : (d.node id).content = .map entries
  plain : ∀ a ∈ Directive.base, (d.node id).extension? a.name = none
  declaring : placement = .variant ∨ d.IsDeclaring id

/-- Whether a node is read as a type that stands at a path, in some place. -/
inductive IsRead : NodeId → Path → Placement → Prop
  | root : IsRead root [] .root
  | typeEntry {types : NodeId} {entries : List (Key × NodeId)}
      (found : (d.node root).extension? Directive.types.name = some types)
      (content : (d.node types).content = .map entries) {e : Key × NodeId} (inside : e ∈ entries) :
      IsRead e.2 [.ext Directive.types.name, e.1.segment] .typeEntry
  | item {id held : NodeId} {path : Path} {placement : Placement} (read : IsRead id path placement)
      (found : (d.node id).extension? Directive.array.name = some held) :
      IsRead held (path ++ [.ext Directive.array.name]) .nested
  /-- The keys or the values of a map. -/
  | mapPart {id held child : NodeId} {path : Path} {placement : Placement} {name : Bytes}
      (read : IsRead id path placement)
      (found : (d.node id).extension? Directive.map.name = some held)
      (either : name = utf8 "key" ∨ name = utf8 "value")
      (part : (d.node held).content.field? name = some child) :
      IsRead child (path ++ [.ext Directive.map.name] ++ [.ident name]) .nested
  | variant {id held : NodeId} {path : Path} {placement : Placement} {entries : List (Key × NodeId)}
      (read : IsRead id path placement)
      (found : (d.node id).extension? Directive.variants.name = some held)
      (content : (d.node held).content = .map entries) {e : Key × NodeId} (inside : e ∈ entries)
      (notNull : (d.node e.2).content ≠ .primitive .null) :
      IsRead e.2 (path ++ [.ext Directive.variants.name] ++ [e.1.segment]) .variant
  | element {id child : NodeId} {path : Path} {placement : Placement} {elements : List NodeId}
      {i : Nat}
      (read : IsRead id path placement)
      (plain : ∀ a ∈ Directive.base, (d.node id).extension? a.name = none)
      (content : (d.node id).content = .tuple elements) (found : elements[i]? = some child)
      (declaring : d.IsDeclaring child) : IsRead child (path ++ [.tuple (UInt8.ofNat i)]) .nested
  | field {id : NodeId} {path : Path} {placement : Placement} {entries : List (Key × NodeId)}
      (read : IsRead id path placement) (record : d.IsRecord id placement entries)
      {e : Key × NodeId}
      (inside : e ∈ entries) (spelled : e.1.spelling?.isSome = true)
      (declaring : d.IsDeclaring e.2) :
      IsRead e.2 (path ++ [e.1.segment]) .nested

/-- Whether the declaration of a node says that it is optional; it does not without a flag. -/
def HasFlag (id : NodeId) (isOptional : Bool) : Prop :=
  match (d.node id).extension? Directive.optional.name with
  | none => isOptional = false
  | some flag => (d.node flag).content = .primitive (.bool isOptional)

def declarationOf (id : NodeId) (path : Path) (placement : Placement) : Extract Declaration :=
  Extractor.fresh d (Extractor.readTo d d.size id path placement)

/-- Whether a field of a record at the path is the one that an entry declares. -/
structure DeclaresField (s : Schema) (path : Path) (e : Key × NodeId) (f : Field SchemaId) :
    Prop where
  spelled : e.1.spelling? = some f.name
  flag : d.HasFlag e.2 f.isOptional
  schema : ∃ part, d.declarationOf e.2 (path ++ [e.1.segment]) .nested = .ok part ∧
    s.Declares f.schema part

variable {d}

namespace IsOrdered

variable (ordered : d.IsOrdered)

include ordered

theorem declarationOf_eq (id : NodeId) (path : Path) (placement : Placement) :
    d.declarationOf id path placement = Declaration.ofValue (d.valueAt id) path placement :=
  (Extractor.declaration_computes ordered id path placement).fresh

/-- A value is read alike however many levels there are, if they are enough. -/
theorem readTo_eq_ofValue {k : Nat} {id : NodeId} (enough : (d.valueAt id).size ≤ k) :
    Declaration.readTo k (d.valueAt id) = Declaration.ofValue (d.valueAt id) := by
  funext path placement
  exact (Extractor.readTo_computes ordered (Nat.sub_le _ _) enough path placement).fresh.symm.trans
    (ordered.declarationOf_eq id path placement)

variable {id : NodeId} {path : Path} {placement : Placement} {whole : Declaration}

theorem directive?_valueAt (a : Directive) :
    (d.valueAt id).directive? a = ((d.node id).extension? a.name).map d.valueAt :=
  ordered.extension?_valueAt id a.name

/-- What a node declares has below it what its type has before the constraints, read from the nodes
below. -/
theorem read_cases (declared : d.declarationOf id path placement = .ok whole) :
    ∃ read : Declaration.Reader, ∃ typed : Path × Shape Declaration,
      (∀ child, d.IsBelow id child → read (d.valueAt child) = d.declarationOf child) ∧
      Declaration.base read (d.valueAt id) path placement = .ok typed ∧
      whole.shape.children = typed.2.children ∧
      ∀ fields allowsUnknown, typed.2 = .record fields allowsUnknown →
        whole.shape = .record fields allowsUnknown := by
  obtain ⟨k, size⟩ : ∃ k, (d.valueAt id).size = k + 1 :=
    Nat.exists_eq_add_one.2 (d.valueAt id).size_pos
  rw [ordered.declarationOf_eq, Declaration.ofValue, size, Declaration.readTo,
    Declaration.readWith] at declared
  obtain ⟨typed, based, declared⟩ := bind_eq_ok.1 declared
  obtain ⟨narrowed, applied, declared⟩ := bind_eq_ok.1 declared
  obtain ⟨metadata, -, same⟩ := bind_eq_ok.1 declared
  obtain rfl := Except.ok.inj same
  refine ⟨Declaration.readTo k, typed,
    fun child below => ?_, based, ?_, fun fields allowsUnknown record => ?_⟩
  · have smaller := below.smaller
    rw [ordered.readTo_eq_ofValue (by omega)]
    funext path placement
    exact (ordered.declarationOf_eq child path placement).symm
  · have sound := Declaration.base_sound (Declaration.readTo_sound k) _ _ _ typed based
    exact (Constraint.applyAll_gives path _ sound.1 narrowed applied).2
  · rw [record] at applied
    exact Constraint.applyAll_fixed (.inr (.inl rfl)) applied

theorem unannotated_typed {typed : Path × Shape Declaration} {read : Declaration.Reader}
    (plain : ∀ a ∈ Directive.base, (d.node id).extension? a.name = none)
    (based : Declaration.base read (d.valueAt id) path placement = .ok typed) :
    Declaration.unannotated read (d.valueAt id) path placement = .ok typed.2 :=
  Declaration.base_of_none (fun a member => by rw [ordered.directive?_valueAt, plain a member]; rfl) based

theorem annotated_typed {typed : Path × Shape Declaration} {read : Declaration.Reader}
    {a : Directive}
    {held : NodeId} (member : a ∈ Directive.base)
    (found : (d.node id).extension? a.name = some held)
    (based : Declaration.base read (d.valueAt id) path placement = .ok typed) :
    Declaration.annotated read (d.valueAt id) a (d.valueAt held) path = .ok typed :=
  (Declaration.base_of_directive member (by rw [ordered.directive?_valueAt, found]; rfl) based).1

/-- A record has the fields that its entries declare. -/
theorem record_fields {entries : List (Key × NodeId)} (record : d.IsRecord id placement entries)
    (declared : d.declarationOf id path placement = .ok whole) :
    ∃ fields allowsUnknown, whole.shape = .record fields allowsUnknown ∧
      List.Forall₂ (fun (e : Key × NodeId) (f : Field Declaration) => e.1.spelling? = some f.name ∧
          d.declarationOf e.2 (path ++ [e.1.segment]) .nested = .ok f.schema ∧
            d.HasFlag e.2 f.isOptional)
        (entries.filter fun e => e.1.spelling?.isSome && (d.valueAt e.2).isDeclared) fields := by
  obtain ⟨read, typed, below, based, -, kept⟩ := ordered.read_cases declared
  have unannotated := ordered.unannotated_typed record.plain based
  have shown : placement = .variant ∨ (d.valueAt id).isDeclared = true :=
    record.declaring.imp_right (ordered.isDeclaring_iff id).1
  rw [Declaration.unannotated, ordered.content_valueAt, record.content] at unannotated
  dsimp only [Content.mapParts, Content.typeExpression?] at unannotated
  rw [if_pos shown] at unannotated
  obtain ⟨fields, fielded, unannotated⟩ := bind_eq_ok.1 unannotated
  obtain ⟨allowsUnknown, -, same⟩ := bind_eq_ok.1 unannotated
  refine ⟨fields, allowsUnknown, kept _ _ (Except.ok.inj same).symm, ?_⟩
  have each := Declaration.recordFields_eq_ok fielded
  rw [List.filter_map, List.forall₂_map_left_iff] at each
  refine (List.forall₂_iff_zip.2 ⟨each.length_eq, fun {e f} member => ?_⟩)
  obtain ⟨spelled, read, flag⟩ := (List.forall₂_iff_zip.1 each).2 member
  have inside : e ∈ entries := List.mem_of_mem_filter (List.of_mem_zip member).1
  rw [below _ (ordered.isBelow_entry record.content inside)] at read
  refine ⟨spelled, read, ?_⟩
  rw [Declaration.optionalFlag, ordered.directive?_valueAt] at flag
  unfold HasFlag
  cases found : (d.node e.2).extension? Directive.optional.name with
  | none =>
      rw [found] at flag
      exact (Except.ok.inj flag).symm
  | some held =>
      rw [found] at flag
      dsimp only [Option.map_some] at flag
      split at flag
      · next b given =>
        obtain rfl := Except.ok.inj flag
        rw [Value.bool?, ordered.content_valueAt, Content.primitive?_mapParts] at given
        obtain ⟨p, primitive, boolean⟩ := Option.bind_eq_some_iff.1 given
        dsimp only
        cases content : (d.node held).content <;> rw [content] at primitive <;> cases primitive
        cases p <;> cases boolean
        rfl
      · cases flag

end IsOrdered

section Parts

variable (ordered : d.IsOrdered) {id held child : NodeId} {path : Path} {placement : Placement}
  {whole : Declaration}

/-- Whether what a node declares is directly below a declaration. -/
def DeclaresBelow (d : Document) (whole : Declaration) (child : NodeId) (path : Path)
    (placement : Placement) : Prop :=
  ∃ part ∈ whole.shape.children, d.declarationOf child path placement = .ok part

include ordered

theorem IsOrdered.item_below (declared : d.declarationOf id path placement = .ok whole)
    (found : (d.node id).extension? Directive.array.name = some held) :
    d.DeclaresBelow whole held (path ++ [.ext Directive.array.name]) .nested := by
  obtain ⟨read, typed, below, based, children, -⟩ := ordered.read_cases declared
  obtain ⟨item, made, same⟩ :=
    bind_eq_ok.1 (ordered.annotated_typed (a := .array) (by decide) found based)
  obtain rfl := Except.ok.inj same
  rw [below held (ordered.isBelow_extension found)] at made
  exact ⟨item, children ▸ List.mem_cons_self, made⟩

theorem IsOrdered.mapPart_below (declared : d.declarationOf id path placement = .ok whole)
    (found : (d.node id).extension? Directive.map.name = some held) {name : Bytes}
    (either : name = utf8 "key" ∨ name = utf8 "value")
    (part : (d.node held).content.field? name = some child) :
    d.DeclaresBelow whole child (path ++ [.ext Directive.map.name] ++ [.ident name]) .nested := by
  obtain ⟨read, typed, below, based, children, -⟩ := ordered.read_cases declared
  obtain ⟨shape, made, same⟩ :=
    bind_eq_ok.1 (ordered.annotated_typed (a := .map) (by decide) found based)
  obtain rfl := Except.ok.inj same
  have inside := (ordered.isBelow_extension found).trans (ordered.isBelow_field part)
  obtain ⟨first, second, key, value, keyed, valued, read, read', rfl⟩ := Declaration.map_eq_ok made
  rw [ordered.content_valueAt, Content.field?_mapParts] at keyed valued
  rcases either with rfl | rfl
  · rw [part] at keyed
    obtain rfl := Option.some.inj keyed
    rw [below child inside] at read
    exact ⟨key, children ▸ List.mem_cons_self, read⟩
  · rw [part] at valued
    obtain rfl := Option.some.inj valued
    rw [below child inside] at read'
    exact ⟨value, children ▸ List.mem_cons_of_mem _ List.mem_cons_self, read'⟩

theorem IsOrdered.variant_below (declared : d.declarationOf id path placement = .ok whole)
    (found : (d.node id).extension? Directive.variants.name = some held)
    {entries : List (Key × NodeId)}
    (content : (d.node held).content = .map entries) {e : Key × NodeId} (inside : e ∈ entries)
    (notNull : (d.node e.2).content ≠ .primitive .null) :
    d.DeclaresBelow whole e.2
      (path ++ [.ext Directive.variants.name] ++ [e.1.segment]) .variant := by
  obtain ⟨read, typed, below, based, children, -⟩ := ordered.read_cases declared
  obtain ⟨shape, made, same⟩ :=
    bind_eq_ok.1 (ordered.annotated_typed (a := .variants) (by decide) found based)
  obtain rfl := Except.ok.inj same
  obtain ⟨values, variants, representation, map, members, rfl⟩ := Declaration.union_eq_ok made
  rw [ordered.content_valueAt, content] at map
  obtain rfl := Content.map.inj map
  have each := Declaration.unionVariants_eq_ok members
  rw [List.forall₂_map_left_iff] at each
  obtain ⟨variant, listed, read⟩ := exists_of_mem_right each.flip e inside
  have further := (ordered.isBelow_extension found).trans (ordered.isBelow_entry content inside)
  refine ⟨variant.schema, children ▸ List.mem_map_of_mem listed, ?_⟩
  rw [← below e.2 further]
  refine read fun null => notNull (Content.eq_primitive_of_mapParts (f := d.valueAt) ?_)
  exact (ordered.content_valueAt e.2).symm.trans null

theorem IsOrdered.element_below (declared : d.declarationOf id path placement = .ok whole)
    (plain : ∀ a ∈ Directive.base, (d.node id).extension? a.name = none) {elements : List NodeId}
    (content : (d.node id).content = .tuple elements) {i : Nat} (found : elements[i]? = some child)
    (declaring : d.IsDeclaring child) :
    d.DeclaresBelow whole child (path ++ [.tuple (UInt8.ofNat i)]) .nested := by
  obtain ⟨read, typed, below, based, children, -⟩ := ordered.read_cases declared
  have unannotated := ordered.unannotated_typed plain based
  have inside := List.mem_of_getElem? found
  have shown := ordered.isDeclared_of_isDeclaring (.element content inside declaring)
  rw [Declaration.unannotated, ordered.content_valueAt, content] at unannotated
  dsimp only [Content.mapParts, Content.typeExpression?] at unannotated
  rw [if_pos shown] at unannotated
  obtain ⟨made, elemented, same⟩ := bind_eq_ok.1 unannotated
  obtain ⟨element, listed, read⟩ := Declaration.tupleElements_eq_ok elemented (v := d.valueAt child) (i := i)
    (by rw [List.getElem?_map, found]; rfl) (ordered.isDeclared_of_isDeclaring declaring)
  rw [below child (ordered.isBelow_element (.inl content) inside), UInt8.zero_add] at read
  exact ⟨element, by rw [children, ← Except.ok.inj same]; exact listed, read⟩

theorem IsOrdered.field_below (declared : d.declarationOf id path placement = .ok whole)
    {entries : List (Key × NodeId)} (record : d.IsRecord id placement entries) {e : Key × NodeId}
    (inside : e ∈ entries) (spelled : e.1.spelling?.isSome = true) (declaring : d.IsDeclaring e.2) :
    d.DeclaresBelow whole e.2 (path ++ [e.1.segment]) .nested := by
  obtain ⟨fields, allowsUnknown, shape, each⟩ := ordered.record_fields record declared
  have member : e ∈ entries.filter fun e => e.1.spelling?.isSome && (d.valueAt e.2).isDeclared := by
    refine List.mem_filter.2 ⟨inside, ?_⟩
    rw [spelled, ordered.isDeclared_of_isDeclaring declaring]
    rfl
  obtain ⟨field, listed, -, read, -⟩ := exists_of_mem_right each.flip e member
  exact ⟨field.schema, by rw [shape]; exact List.mem_map_of_mem listed, read⟩

end Parts

end Document

/-- The table holds a declared record with its fields, each with the type that it declares. -/
theorem Schema.Declares.record {s : Schema} {y : SchemaId} {whole : Declaration}
    (declares : s.Declares y whole)
    {fields : List (Field Declaration)} {allowsUnknown : Bool}
    (shape : whole.shape = .record fields allowsUnknown) :
    ∃ laid, s.node? y = some ⟨.record laid allowsUnknown, whole.metadata⟩ ∧
      List.Forall₂ (fun f g => f.name = g.name ∧ f.isOptional = g.isOptional ∧
        s.Declares g.schema f.schema)
        fields laid := by
  obtain ⟨laid, found, own, children⟩ := declares.found
  rw [shape] at own children
  cases laid with
  | record laid allowsUnknown' =>
      obtain ⟨fieldwise, rfl⟩ := Shape.record.inj own
      refine ⟨laid, found, (forall₂_of_map fieldwise children).flip.imp fun f g related => ?_⟩
      obtain ⟨same, declares⟩ := related
      obtain ⟨name, -, isOptional⟩ := Field.mk.inj same
      exact ⟨name.symm, isOptional.symm, declares⟩
  | _ => cases own

theorem Schema.Declares.part {s : Schema} {y : SchemaId} {whole part : Declaration}
    (declares : s.Declares y whole)
    (inside : part ∈ whole.shape.children) : ∃ z, s.Declares z part := by
  obtain ⟨laid, -, -, children⟩ := declares.found
  obtain ⟨z, -, declared⟩ := exists_of_mem_right children part inside
  exact ⟨z, declared⟩

namespace Document

variable {d : Document} {x : Extraction}

/-- The types of an extracted schema are what the named types and the root declare. -/
theorem IsOrdered.extracted (ordered : d.IsOrdered) (extracted : extract d = .ok x) :
    (∃ whole, d.declarationOf root [] .root = .ok whole ∧ x.schema.Declares x.schema.root whole) ∧
      ∀ types entries, (d.node root).extension? Directive.types.name = some types →
        (d.node types).content = .map entries → ∀ e ∈ entries, ∃ whole,
          d.declarationOf e.2 [.ext Directive.types.name, e.1.segment] .typeEntry = .ok whole ∧
            ∃ y, x.schema.Declares y whole := by
  obtain ⟨declarations, read, rest⟩ := bind_eq_ok.1 extracted
  obtain ⟨-, -, distinct⟩ := Declarations.ofValue_sound _ declarations read
  have tabled := declarations.areTabled distinct
  obtain ⟨types, typed, read⟩ := bind_eq_ok.1 read
  obtain ⟨naming, -, read⟩ := bind_eq_ok.1 read
  obtain ⟨rooted, declared, same⟩ := bind_eq_ok.1 read
  obtain rfl := Except.ok.inj same
  dsimp only at rest
  split at rest
  · cases rest
  · obtain rfl := Except.ok.inj rest
    refine ⟨⟨rooted, (ordered.declarationOf_eq _ _ _).trans declared, tabled.root⟩, ?_⟩
    intro held entries found content e inside
    rw [Declarations.typesOf, Document.value, ordered.directive?_valueAt, found] at typed
    dsimp only [Option.map_some] at typed
    rw [ordered.content_valueAt, content] at typed
    have each := (Declarations.namedTypes_iff.1 typed).1
    rw [List.forall₂_map_left_iff] at each
    obtain ⟨named, listed, from_entry⟩ := exists_of_mem_right each.flip e inside
    obtain ⟨registered, -, -, declares⟩ := exists_of_mem_right tabled.types named listed
    exact ⟨named.declaration, (ordered.declarationOf_eq _ _ _).trans from_entry.declaration,
      registered.2, declares⟩

/-- A node that is read has its declaration in the schema: it declares a part of what the node above
declares. -/
theorem IsRead.declared (ordered : d.IsOrdered) (extracted : extract d = .ok x) {id : NodeId}
    {path : Path} {placement : Placement} (read : d.IsRead id path placement) :
    ∃ whole, d.declarationOf id path placement = .ok whole ∧ ∃ y, x.schema.Declares y whole := by
  have further {whole : Declaration} {child : NodeId} {path : Path} {placement : Placement}
      (declares : ∃ y, x.schema.Declares y whole)
      (below : d.DeclaresBelow whole child path placement) :
      ∃ part, d.declarationOf child path placement = .ok part ∧ ∃ y, x.schema.Declares y part := by
    obtain ⟨y, declares⟩ := declares
    obtain ⟨part, inside, declared⟩ := below
    exact ⟨part, declared, declares.part inside⟩
  induction read with
  | root =>
      obtain ⟨⟨whole, declared, declares⟩, -⟩ := ordered.extracted extracted
      exact ⟨whole, declared, _, declares⟩
  | typeEntry found content inside =>
      exact (ordered.extracted extracted).2 _ _ found content _ inside
  | item read found ih =>
      obtain ⟨whole, declared, declares⟩ := ih
      exact further declares (ordered.item_below declared found)
  | mapPart read found either part ih =>
      obtain ⟨whole, declared, declares⟩ := ih
      exact further declares (ordered.mapPart_below declared found either part)
  | variant read found content inside notNull ih =>
      obtain ⟨whole, declared, declares⟩ := ih
      exact further declares (ordered.variant_below declared found content inside notNull)
  | element read plain content found declaring ih =>
      obtain ⟨whole, declared, declares⟩ := ih
      exact further declares (ordered.element_below declared plain content found declaring)
  | field read record inside spelled declaring ih =>
      obtain ⟨whole, declared, declares⟩ := ih
      exact further declares (ordered.field_below declared record inside spelled declaring)

section Run

variable (ordered : d.IsOrdered) {id : NodeId} {path : Path} {placement : Placement}
    (read : d.IsRead id path placement)
include ordered read

theorem IsRead.declared_of_run (extracted : Extractor.run d = .ok x) :
    ∃ whole, d.declarationOf id path placement = .ok whole ∧ ∃ y, x.schema.Declares y whole :=
  read.declared ordered ((Extractor.run_eq_extract ordered).symm.trans extracted)

/-- Where a node that is read declares nothing, nothing is extracted. -/
theorem IsRead.refused (undeclared : ∀ whole, d.declarationOf id path placement ≠ .ok whole) :
    ∃ error, Extractor.run d = .error error := by
  cases ran : Extractor.run d with
  | error error => exact ⟨error, rfl⟩
  | ok x =>
      obtain ⟨whole, declared, -⟩ := read.declared_of_run ordered ran
      exact absurd declared (undeclared whole)

end Run

end Document

open scoped Classical in
/-- A node that is read as a record has its declaration in the schema; and wherever that is, it is a
record whose fields are, in order, the entries with a spelling that declare a type. Whether a node
declares one is what the extractor answers, whatever it has been asked before. -/
theorem Extractor.run_records {d : Document} {x : Extraction} (built : d.IsBuilt)
    (extracted : Extractor.run d = .ok x) :
    (∀ id path placement entries, d.IsRead id path placement → d.IsRecord id placement entries →
      ∃ whole, d.declarationOf id path placement = .ok whole ∧ (∃ y, x.schema.Declares y whole) ∧
        ∀ y, x.schema.Declares y whole → ∃ fields allowsUnknown metadata,
          x.schema.node? y = some ⟨.record fields allowsUnknown, metadata⟩ ∧
            List.Forall₂ (d.DeclaresField x.schema path)
              (entries.filter fun e => e.1.spelling?.isSome && decide (d.IsDeclaring e.2)) fields) ∧
      ∀ ids : List NodeId, fresh d (ids.mapM (isDeclared d)) =
        .ok (ids.map fun id => decide (d.IsDeclaring id)) := by
  have ordered := built.isOrdered
  refine ⟨fun id path placement entries read record => ?_, isDeclared_answers ordered⟩
  obtain ⟨whole, declared, declares⟩ :=
    read.declared ordered ((run_eq_extract ordered).symm.trans extracted)
  refine ⟨whole, declared, declares, fun y declares => ?_⟩
  obtain ⟨fields, allowsUnknown, shape, each⟩ := ordered.record_fields record declared
  obtain ⟨laid, found, fielded⟩ := declares.record shape
  have same : (entries.filter fun e => e.1.spelling?.isSome && decide (d.IsDeclaring e.2)) =
      entries.filter fun e => e.1.spelling?.isSome && (d.valueAt e.2).isDeclared := by
    refine List.filter_congr fun e _ => congrArg _ (Bool.eq_iff_iff.2 ?_)
    rw [decide_eq_true_iff]
    exact ordered.isDeclaring_iff e.2
  refine ⟨laid, allowsUnknown, whole.metadata, found, same ▸ forall₂_through ?_ each fielded⟩
  rintro e f g ⟨spelled, declared, flag⟩ ⟨name, optional, declares⟩
  exact ⟨name ▸ spelled, optional ▸ flag, f.schema, declared, declares⟩

namespace Document

/-- A person: a name that is needed, an age that is not, and a note that declares nothing. -/
private def person : Document :=
  ⟨#[⟨.map [(.ident "name", 1), (.ident "age", 2), (.ident "note", 3), (.literal (.int 1), 4)], []⟩,
    ⟨.primitive (.text ⟨"text", .implicit⟩), []⟩,
    ⟨.primitive (.text ⟨"integer", .implicit⟩), [("optional", 5)]⟩,
    ⟨.primitive (.text ⟨"text", .plaintext⟩), []⟩,
    ⟨.primitive (.text ⟨"any", .implicit⟩), []⟩,
    ⟨.primitive (.bool true), []⟩]⟩

private theorem person_isRecord :
    person.IsRecord Document.root .root
      [(.ident "name", 1), (.ident "age", 2), (.ident "note", 3), (.literal (.int 1), 4)] := by
  refine ⟨rfl, by decide, .inr (.entry (e := (.ident "name", 1)) rfl List.mem_cons_self ?_)⟩
  exact .expression (e := .text) rfl

private theorem person_notDeclaring : ¬ person.IsDeclaring 3 := by
  intro declaring
  cases declaring with
  | directive among found => cases found
  | expression content => cases content
  | entry content inside below => cases content
  | element content inside below => cases content

/-- The record of a person has the two fields, whatever else the document holds. -/
theorem run_records_person : person.IsBuilt ∧ ∃ x, Extractor.run person = .ok x ∧
    ∃ y fields allowsUnknown metadata,
      x.schema.node? y = some ⟨.record fields allowsUnknown, metadata⟩ ∧
      fields.map (fun f => (f.name, f.isOptional)) =
        [(utf8 "name", false), (utf8 "age", true)] := by
  have built : person.IsBuilt :=
    .of_run [.insert 0 (.ident "name"), .insert 0 (.ident "age"), .insert 0 (.ident "note"),
      .insert 0 (.literal (.int 1)), .ensure [.ext "optional"] 2,
      .assign 1 (.text ⟨"text", .implicit⟩),
      .assign 2 (.text ⟨"integer", .implicit⟩), .assign 3 (.text ⟨"text", .plaintext⟩),
      .assign 4 (.text ⟨"any", .implicit⟩), .assign 5 (.bool true)] rfl rfl
  obtain ⟨x, extracted⟩ : ∃ x, Extractor.run person = .ok x := ⟨_, rfl⟩
  obtain ⟨whole, -, ⟨y, declares⟩, record⟩ :=
    (Extractor.run_records built extracted).1 _ _ _ _ .root person_isRecord
  obtain ⟨fields, allowsUnknown, metadata, found, each⟩ := record y declares
  refine ⟨built, x, extracted, y, fields, allowsUnknown, metadata, found, ?_⟩
  have named : person.IsDeclaring 1 := .expression (e := .text) rfl
  have aged : person.IsDeclaring 2 := .expression (e := .integer) rfl
  simp only [List.filter_cons, List.filter_nil, Key.spelling?, Option.isSome_some,
    Option.isSome_none, Bool.true_and, Bool.false_and, named, aged, person_notDeclaring,
    decide_true, decide_false, ↓reduceIte, Bool.false_eq_true] at each
  cases each with
  | cons first rest =>
      cases rest with
      | cons second rest =>
          cases rest
          have name := Option.some.inj first.spelled
          have age := Option.some.inj second.spelled
          have needed : _ = false := first.flag
          have optional := Primitive.bool.inj (Content.primitive.inj second.flag)
          simp only [List.map_cons, List.map_nil, ← name, ← age, needed, ← optional]

end Document

end DocSchema
