import DocSchema.Proofs.Extracted
import DocSchema.Proofs.ReorderedDocuments
import DocSchema.Proofs.Retabled

set_option autoImplicit false

namespace DocSchema

/-- What is read in two steps is read if both steps succeed. -/
theorem bind_eq_ok {ε α β : Type} {x : Except ε α} {f : α → Except ε β} {b : β} :
    x >>= f = .ok b ↔ ∃ a, x = .ok a ∧ f a = .ok b := by
  cases x with
  | error e => exact ⟨nofun, nofun⟩
  | ok a => exact ⟨fun same => ⟨a, rfl, same⟩, fun ⟨_, same, rest⟩ => Except.ok.inj same ▸ rest⟩

/-- Under one key stand related items, if items are related where their keys are looked for. -/
theorem rel_lookup? {κ α : Type} [DecidableEq κ] {R : α → α → Prop} {k : κ}
    {items others : List (κ × α)}
    (each : List.Forall₂ (fun x y => x.1 = y.1 ∧ (x.1 = k → R x.2 y.2)) items others) :
    Option.Rel R (lookup? k items) (lookup? k others) := by
  induction each with
  | nil => exact .none
  | @cons x y xs ys first rest ih =>
      rw [lookup?, lookup?, List.find?_cons, List.find?_cons, ← first.1]
      by_cases named : x.1 = k
      · rw [beq_iff_eq.2 named]
        exact .some (first.2 named)
      · rw [beq_eq_false_iff_ne.2 named]
        exact ih

namespace Value

/-- Whether two maps hold the same entries, in whatever order. -/
structure ReordersEntries (v w : Value) : Prop where
  extensions : v.extensions = w.extensions
  entries : ∃ es fs, v.content = .map es ∧ w.content = .map fs ∧ es.Perm fs

theorem ReordersEntries.symm {v w : Value} (same : v.ReordersEntries w) : w.ReordersEntries v := by
  obtain ⟨extensions, es, fs, left, right, entries⟩ := same
  exact ⟨extensions.symm, fs, es, right, left, entries.symm⟩

/-- Whether two extensions are the same, or both hold the types, in whatever order. -/
def SameItem (x y : Bytes × Value) : Prop :=
  x.1 = y.1 ∧ (x.2 = y.2 ∨ x.1 = Directive.types.name ∧ x.2.ReordersEntries y.2)

theorem SameItem.symm {x y : Bytes × Value} (same : SameItem x y) : SameItem y x :=
  ⟨same.1.symm, same.2.imp Eq.symm fun types => ⟨same.1 ▸ types.1, types.2.symm⟩⟩

/-- Whether two values are the same but for the order of the entries under `$types`. -/
structure SameButTypeOrder (v w : Value) : Prop where
  content : v.content = w.content
  extensions : List.Forall₂ SameItem v.extensions w.extensions

theorem sizeEntries_perm {es fs : List (Key × Value)} (same : es.Perm fs) :
    sizeEntries es = sizeEntries fs := by
  induction same with
  | nil => rfl
  | cons e rest ih => rw [sizeEntries, sizeEntries, ih]
  | swap e f rest =>
      simp only [sizeEntries]
      omega
  | trans first second ih ih' => exact ih.trans ih'

theorem ReordersEntries.size_eq {v w : Value} (same : v.ReordersEntries w) : v.size = w.size := by
  obtain ⟨c, x⟩ := v
  obtain ⟨c', x'⟩ := w
  obtain ⟨extensions, es, fs, left, right, entries⟩ := same
  cases extensions
  cases left
  cases right
  rw [size, size, sizeContent, sizeContent, sizeEntries_perm entries]

theorem sizeItems_eq {x y : List (Bytes × Value)} (same : List.Forall₂ SameItem x y) :
    sizeItems x = sizeItems y := by
  induction same with
  | nil => rfl
  | @cons x y xs ys first rest ih =>
      have size : x.2.size = y.2.size := by
        rcases first.2 with same | ⟨-, same⟩
        · rw [same]
        · exact same.size_eq
      rw [sizeItems, sizeItems, size, ih]

namespace SameButTypeOrder

variable {v w : Value} (same : v.SameButTypeOrder w)
include same

theorem symm : w.SameButTypeOrder v :=
  ⟨same.content.symm, same.extensions.flip.imp fun _ _ => SameItem.symm⟩

theorem size_eq : v.size = w.size := by
  obtain ⟨contents, extensions⟩ := same
  have items := sizeItems_eq extensions
  cases v
  cases w
  simp only [Value.content, Value.extensions] at contents items
  rw [size, size, contents, items]

/-- What stands under one name is the same, unless it is the types. -/
theorem extension? (name : Bytes) :
    Option.Rel (fun x y => x = y ∨ name = Directive.types.name ∧ x.ReordersEntries y)
    (v.extension? name) (w.extension? name) := by
  refine rel_lookup? (same.extensions.imp fun {x y} item => ⟨item.1, fun named => ?_⟩)
  exact item.2.imp_right fun types => ⟨named.symm.trans types.1, types.2⟩

/-- What stands under another name than that of the types is the same. -/
theorem extension?_eq {name : Bytes} (other : name ≠ Directive.types.name) :
    v.extension? name = w.extension? name := by
  rcases eq_of_rel (same.extension? name) with ⟨left, right⟩ | ⟨x, y, left, right, equal | types⟩
  · rw [left, right]
  · rw [left, right, equal]
  · exact absurd types.1 other

theorem directive?_eq {a : Directive} (other : a ≠ .types) : v.directive? a = w.directive? a :=
  same.extension?_eq (by revert other; cases a <;> decide)

theorem isDeclared_eq : v.isDeclared = w.isDeclared := by
  obtain ⟨contents, extensions⟩ := same
  have names : v.extensions.any (fun item => Directive.declares item.1) =
      w.extensions.any fun item => Directive.declares item.1 := by
    generalize v.extensions = x, w.extensions = y at extensions
    induction extensions with
    | nil => rfl
    | cons first rest ih => rw [List.any_cons, List.any_cons, first.1, ih]
  cases v
  cases w
  simp only [Value.content, Value.extensions] at contents names
  rw [isDeclared, isDeclared, contents, names]

theorem holdsData_eq : v.holdsData = w.holdsData := by
  have contents := same.content
  cases v
  cases w
  exact congrArg holdsDataContent contents

end SameButTypeOrder

end Value

namespace Constraint

/-- The types constrain nothing. -/
theorem applyAll_eq {α : Type} (path : Path) (s : Shape α) {x y : List (Bytes × Value)}
    (same : List.Forall₂ Value.SameItem x y) : applyAll path s x = applyAll path s y := by
  induction same generalizing s with
  | nil => rfl
  | @cons x y xs ys first rest ih =>
      obtain ⟨name, a⟩ := x
      obtain ⟨name', b⟩ := y
      obtain ⟨rfl, equal | ⟨rfl, -⟩⟩ := first
      · obtain rfl : a = b := equal
        simp only [applyAll, ih]
      · have ignored (c : Value) : apply Directive.types.name c s = .ok s := rfl
        rw [applyAll, applyAll, ignored, ignored]
        exact ih s

end Constraint

namespace Metadata

/-- The types say nothing about the root. -/
theorem noteAll_eq (placement : Placement) (path : Path) (m : Metadata) {x y : List (Bytes × Value)}
    (same : List.Forall₂ Value.SameItem x y) :
    noteAll placement path m x = noteAll placement path m y := by
  induction same generalizing m with
  | nil => rfl
  | @cons x y xs ys first rest ih =>
      obtain ⟨name, a⟩ := x
      obtain ⟨name', b⟩ := y
      obtain ⟨rfl, equal | ⟨rfl, -⟩⟩ := first
      · obtain rfl : a = b := equal
        simp only [noteAll, ih]
      · have ignored (c : Value) : note placement Directive.types.name c m = .ok m := rfl
        rw [noteAll, noteAll, ignored, ignored]
        exact ih m

end Metadata

namespace Declaration

variable {v w : Value} (same : v.SameButTypeOrder w)
include same

theorem unannotated_typeOrder (read : Reader) (path : Path) (placement : Placement) :
    unannotated read v path placement = unannotated read w path placement := by
  have policy : unknownFieldsPolicy v path = unknownFieldsPolicy w path := by
    rw [unknownFieldsPolicy, unknownFieldsPolicy, same.directive?_eq (by decide)]
  rw [unannotated, unannotated, same.content, same.isDeclared_eq, policy]

theorem annotated_typeOrder (read : Reader) (a : Directive) (held : Value) (path : Path) :
    annotated read v a held path = annotated read w a held path := by
  have members : union read v held path = union read w held path := by
    rw [union, union, same.directive?_eq (by decide)]
  cases a <;> simp only [annotated, members]

theorem base_typeOrder (read : Reader) (path : Path) (placement : Placement) :
    base read v path placement = base read w path placement := by
  have directives : (Directive.base.filterMap fun a => (v.directive? a).map fun held => (a, held)) =
      Directive.base.filterMap fun a => (w.directive? a).map fun held => (a, held) := by
    refine List.filterMap_congr fun a listed => ?_
    rw [same.directive?_eq (by rintro rfl; revert listed; decide)]
  rw [base, base, directives, same.content, unannotated_typeOrder same]
  simp only [annotated_typeOrder same]

/-- The declaration of the root does not depend on the order of the types. -/
theorem ofValue_typeOrder (path : Path) (placement : Placement) :
    ofValue v path placement = ofValue w path placement := by
  rw [ofValue, ofValue, same.size_eq]
  cases w.size with
  | zero => rfl
  | succ depth =>
      rw [readTo, readWith, readWith, base_typeOrder same]
      simp only [Constraint.applyAll_eq path _ same.extensions,
        Metadata.noteAll_eq placement path _ same.extensions]

end Declaration

/-- Whether an entry under `$types` declares a named type. -/
structure NamedType.IsReadFrom (path : Path) (e : Key × Value) (t : NamedType) : Prop where
  spelled : e.1.spelling? = some t.name
  declaration : Declaration.ofValue e.2 (path ++ [e.1.segment]) .typeEntry = .ok t.declaration
  naming : Naming.ofValue e.2 (path ++ [e.1.segment]) = .ok t.naming

namespace Declarations

/-- Entries declare types if each of them does by itself and all have different names. -/
theorem namedTypes_iff {path : Path} {seen : List Bytes} {es : List (Key × Value)}
    {ts : List NamedType} :
    namedTypes path seen es = .ok ts ↔ List.Forall₂ (NamedType.IsReadFrom path) es ts ∧
      (ts.map (·.name)).Nodup ∧ ∀ t ∈ ts, t.name ∉ seen := by
  induction es generalizing seen ts with
  | nil =>
      rw [namedTypes, List.forall₂_nil_left_iff]
      constructor
      · rintro ⟨⟩
        simp
      · rintro ⟨rfl, -⟩
        rfl
  | cons e es ih =>
      obtain ⟨key, v⟩ := e
      rw [namedTypes]
      cases spelled : key.spelling? with
      | none =>
          constructor
          · intro read
            cases read
          · rintro ⟨each, -⟩
            cases each with
            | cons first rest => cases spelled.symm.trans first.spelled
      | some name =>
          by_cases taken : name ∈ seen
          · simp only [if_pos taken, bind_eq_ok]
            constructor
            · rintro ⟨_, _, _, refused, _⟩
              cases refused
            · rintro ⟨each, -, fresh⟩
              cases each with
              | cons first rest =>
                  obtain rfl := Option.some.inj (spelled.symm.trans first.spelled)
                  exact absurd taken (fresh _ List.mem_cons_self)
          · simp only [if_neg taken, bind_eq_ok, ih]
            constructor
            · rintro ⟨d, declared, naming, named, rest, ⟨each, distinct, apart⟩, same⟩
              obtain rfl := Except.ok.inj same
              obtain ⟨distinct, apart⟩ :=
                Declaration.distinct_cons NamedType.name ⟨name, d, naming⟩ taken distinct apart
              exact ⟨.cons ⟨spelled, declared, named⟩ each, distinct, apart⟩
            · rintro ⟨each, distinct, fresh⟩
              cases each with
              | @cons _ t _ ts first rest =>
                  obtain ⟨name', d, naming⟩ := t
                  obtain ⟨spelled', declared, named⟩ := first
                  obtain rfl : name = name' := Option.some.inj (spelled.symm.trans spelled')
                  exact ⟨d, declared, naming, named, ts,
                    ⟨rest, Declaration.distinct_rest _ distinct fresh⟩, rfl⟩

/-- In another order the entries declare the same types, in another order. -/
theorem namedTypes_perm {path : Path} {es fs : List (Key × Value)} {ts : List NamedType}
    (same : es.Perm fs)
    (read : namedTypes path [] es = .ok ts) :
    ∃ us, namedTypes path [] fs = .ok us ∧ ts.Perm us := by
  obtain ⟨each, distinct, -⟩ := namedTypes_iff.1 read
  obtain ⟨us, each', reordered⟩ := List.perm_comp_forall₂ same.symm each
  refine ⟨us, namedTypes_iff.2 ⟨each', ?_, by simp⟩, reordered.symm⟩
  exact (reordered.map _).nodup_iff.2 distinct

theorem typesOf_reordered {v w : Value} (same : v.SameButTypeOrder w) {ts : List NamedType}
    (read : typesOf v = .ok ts) : ∃ us, typesOf w = .ok us ∧ ts.Perm us := by
  rw [typesOf, Value.directive?] at read ⊢
  rcases eq_of_rel (same.extension? Directive.types.name) with ⟨left, right⟩ | ⟨x, y, left, right, held⟩
  · rw [left] at read
    rw [right]
    exact ⟨ts, read, .refl ts⟩
  · rw [left] at read
    rw [right]
    rcases held with rfl | ⟨-, -, es, fs, map, map', entries⟩
    · exact ⟨ts, read, .refl ts⟩
    · simp only [map] at read
      simp only [map']
      exact namedTypes_perm entries read

/-- Values that are the same but for the order of the types declare the same but for their order. -/
theorem ofValue_reordered {v w : Value} (same : v.SameButTypeOrder w) {d : Declarations}
    (read : ofValue v = .ok d) :
    ∃ e, ofValue w = .ok e ∧ d.Reorders e := by
  have names : Naming.ofValue v [] = Naming.ofValue w [] := by
    rw [Naming.ofValue, Naming.ofValue, same.extension?_eq (by decide),
      same.extension?_eq (by decide)]
  simp only [ofValue, bind_eq_ok] at read ⊢
  obtain ⟨ts, types, naming, named, root, rooted, made⟩ := read
  obtain rfl := Except.ok.inj made
  obtain ⟨us, types', reordered⟩ := typesOf_reordered same types
  refine ⟨_, ⟨us, types', naming, names ▸ named, root, ?_, rfl⟩, reordered, rfl, rfl⟩
  rw [← Declaration.ofValue_typeOrder same]
  exact rooted

/-- Whatever a tidy value declares equals itself. -/
theorem ofValue_reflexive {v : Value} (tidy : v.IsTidy) :
    Gives (fun d => ∀ whole ∈ d.all, whole.IsReflexive) (ofValue v) := by
  intro d read
  simp only [ofValue, bind_eq_ok] at read
  obtain ⟨ts, types, naming, -, root, rooted, made⟩ := read
  obtain rfl := Except.ok.inj made
  refine List.forall_mem_append.2 ⟨?_, List.forall_mem_singleton.2 ?_⟩
  · rw [List.forall_mem_map]
    intro t listed
    rw [typesOf] at types
    cases found : v.directive? .types with
    | none =>
        rw [found] at types
        cases types
        cases listed
    | some held =>
        rw [found] at types
        cases content : held.content with
        | map es =>
            simp only [content] at types
            obtain ⟨e, inside, first⟩ := exists_of_mem_right (namedTypes_iff.1 types).1 t listed
            have tidy := (tidy.directive found).entries content e inside
            exact Declaration.ofValue_reflexive _ _ _ tidy _ first.declaration
        | _ =>
            simp only [content] at types
            cases types
  · exact Declaration.ofValue_reflexive v [] .root tidy root rooted

end Declarations

/-- If a schema is extracted, then an equivalent one is from the same types in another order. -/
theorem extractValue_reordered {v w : Value} (same : v.SameButTypeOrder w) (tidy : v.IsTidy)
    {x : Extraction} (extracted : extractValue v = .ok x) :
    ∃ y, extractValue w = .ok y ∧ x.schema.equivalent y.schema = true ∧ x.isPure = y.isPure := by
  obtain ⟨d, read, rest⟩ := bind_eq_ok.1 extracted
  obtain ⟨e, read', reordered⟩ := Declarations.ofValue_reordered same read
  obtain ⟨-, -, distinct⟩ := Declarations.ofValue_sound v d read
  obtain ⟨-, -, distinct'⟩ := Declarations.ofValue_sound w e read'
  have left := d.areTabled distinct
  have right := e.areTabled distinct'
  dsimp only at rest
  split at rest
  · cases rest
  · next defined =>
    obtain rfl := Except.ok.inj rest
    refine ⟨⟨e.table.2, !w.holdsData⟩, bind_eq_ok.2 ⟨e, read', ?_⟩, ?_, ?_⟩
    · dsimp only
      rw [reordered.defined left right defined]
      rfl
    · exact Schema.equivalent_iff.2
        (reordered.bisimilar distinct (Declarations.ofValue_reflexive tidy d read) left right)
    · exact congrArg not same.holdsData_eq

/-- Extraction does not depend on the order in which types are declared: documents without a NaN
that differ in nothing else both declare no schema, or declare equivalent ones. -/
theorem extract_typeOrder (d e : Document) (built : d.IsBuilt ∧ e.IsBuilt)
    (real : d.value.IsReal ∧ e.value.IsReal) (same : d.value.SameButTypeOrder e.value) :
    (∃ f g, extract d = .error f ∧ extract e = .error g) ∨
      ∃ x y, extract d = .ok x ∧ extract e = .ok y ∧ x.schema.equivalent y.schema = true ∧
        y.schema.equivalent x.schema = true ∧ x.isPure = y.isPure := by
  have tidy : d.value.IsTidy ∧ e.value.IsTidy :=
    ⟨⟨built.1.isOrdered.hasUniqueKeys _, real.1⟩, ⟨built.2.isOrdered.hasUniqueKeys _, real.2⟩⟩
  rw [extract, extract]
  cases left : extractValue d.value with
  | ok x =>
      obtain ⟨y, right, equivalent, pure⟩ := extractValue_reordered same tidy.1 left
      obtain ⟨x', left', equivalent', -⟩ := extractValue_reordered same.symm tidy.2 right
      obtain rfl := Except.ok.inj (left.symm.trans left')
      exact .inr ⟨x, y, rfl, right, equivalent, equivalent', pure⟩
  | error f =>
      cases right : extractValue e.value with
      | ok y =>
          obtain ⟨x, left', -⟩ := extractValue_reordered same.symm tidy.2 right
          cases left.symm.trans left'
      | error g => exact .inl ⟨f, g, rfl, rfl⟩

/-- A document none of whose nodes holds a NaN has a value without one. -/
theorem Document.valueTo_real {d : Document}
    (real : ∀ n ∈ d.nodes.toList, ∀ x, n.content = .primitive (.float x) → x.isNaN = false)
    (depth : Nat)
    (id : NodeId) : (d.valueTo depth id).IsReal := by
  induction depth generalizing id with
  | zero => exact .intro nofun nofun
  | succ depth ih =>
      have root : (d.valueTo (depth + 1) id).root = (d.node id).mapParts (d.valueTo depth) := rfl
      refine .intro (fun x content => ?_) fun part inside => ?_
      · change ((d.node id).content.mapParts _) = _ at content
        rw [Document.node] at content
        cases found : d.nodes[id]? with
        | none =>
            rw [found] at content
            cases content
        | some n =>
            rw [found, Option.getD_some] at content
            refine real n (Array.mem_toList_iff.2 (Array.mem_of_getElem? found)) x ?_
            cases held : n.content <;> rw [held] at content <;> cases content
            rfl
      · rw [root, Node.parts_mapParts] at inside
        obtain ⟨child, -, rfl⟩ := List.mem_map.1 inside
        exact ih child

private def trees : Document :=
  ⟨#[⟨.primitive (.text ⟨"Tree", .implicit⟩), [("types", 1)]⟩,
    ⟨.map [(.ident "Tree", 2), (.ident "Branches", 3)], []⟩,
    ⟨.map [(.ident "label", 4), (.ident "branches", 5)], []⟩, ⟨.hole, [("array", 6)]⟩,
    ⟨.primitive (.text ⟨"text", .implicit⟩), []⟩, ⟨.primitive (.text ⟨"Branches", .implicit⟩), []⟩,
    ⟨.primitive (.text ⟨"Tree", .implicit⟩), []⟩]⟩

private def branches : Document :=
  ⟨#[⟨.primitive (.text ⟨"Tree", .implicit⟩), [("types", 1)]⟩,
    ⟨.map [(.ident "Branches", 2), (.ident "Tree", 4)], []⟩,
    ⟨.hole, [("array", 3)]⟩, ⟨.primitive (.text ⟨"Tree", .implicit⟩), []⟩,
    ⟨.map [(.ident "label", 5), (.ident "branches", 6)], []⟩,
    ⟨.primitive (.text ⟨"text", .implicit⟩), []⟩, ⟨.primitive (.text ⟨"Branches", .implicit⟩), []⟩]⟩

private def word (name : Bytes) : Value :=
  .of (.primitive (.text ⟨name, .implicit⟩))

private def treeEntry : Key × Value :=
  (.ident "Tree", .of (.map [(.ident "label", word "text"), (.ident "branches", word "Branches")]))

private def branchesEntry : Key × Value :=
  (.ident "Branches", .node .hole [("array", word "Tree")])

private theorem trees_sameButTypeOrder : trees.value.SameButTypeOrder branches.value := by
  let rooted (types : List (Key × Value)) : Value :=
    .node (.primitive (.text ⟨"Tree", .implicit⟩)) [("types", .of (.map types))]
  have left : trees.value = rooted [treeEntry, branchesEntry] := rfl
  have right : branches.value = rooted [branchesEntry, treeEntry] := rfl
  rw [left, right]
  exact ⟨rfl, .cons ⟨rfl, .inr ⟨rfl, rfl, _, _, rfl, rfl, .swap branchesEntry treeEntry []⟩⟩ .nil⟩

/-- Although the two types refer to each other, either of them may come first. -/
theorem extract_typeOrder_trees :
    (trees.IsBuilt ∧ branches.IsBuilt) ∧ (trees.value.IsReal ∧ branches.value.IsReal) ∧
      trees.value.SameButTypeOrder branches.value ∧
      ∃ x y, extract trees = .ok x ∧ extract branches = .ok y ∧
        x.schema.equivalent y.schema = true ∧ y.schema.equivalent x.schema = true ∧
        x.isPure = y.isPure ∧
        x.schema.types = [(utf8 "Tree", 2), (utf8 "Branches", 4)] ∧
        y.schema.types = [(utf8 "Branches", 1), (utf8 "Tree", 4)] := by
  have built : trees.IsBuilt ∧ branches.IsBuilt :=
    ⟨.of_run [.ensure [.ext "types"] 0, .insert 1 (.ident "Tree"), .insert 1 (.ident "Branches"),
        .insert 2 (.ident "label"), .insert 2 (.ident "branches"), .ensure [.ext "array"] 3,
        .assign 0 (.text ⟨"Tree", .implicit⟩), .assign 4 (.text ⟨"text", .implicit⟩),
        .assign 5 (.text ⟨"Branches", .implicit⟩), .assign 6 (.text ⟨"Tree", .implicit⟩)] rfl rfl,
      .of_run [.ensure [.ext "types"] 0, .insert 1 (.ident "Branches"), .ensure [.ext "array"] 2,
        .insert 1 (.ident "Tree"), .insert 4 (.ident "label"), .insert 4 (.ident "branches"),
        .assign 0 (.text ⟨"Tree", .implicit⟩), .assign 3 (.text ⟨"Tree", .implicit⟩),
        .assign 5 (.text ⟨"text", .implicit⟩), .assign 6 (.text ⟨"Branches", .implicit⟩)] rfl rfl⟩
  have real : trees.value.IsReal ∧ branches.value.IsReal :=
    ⟨Document.valueTo_real (by simp [trees]) _ _, Document.valueTo_real (by simp [branches]) _ _⟩
  have same := trees_sameButTypeOrder
  have types : (extract trees).toOption.map (·.schema.types) =
      some [(utf8 "Tree", 2), (utf8 "Branches", 4)] ∧
      (extract branches).toOption.map (·.schema.types) =
        some [(utf8 "Branches", 1), (utf8 "Tree", 4)] := by
    constructor <;> decide +kernel
  refine ⟨built, real, same, ?_⟩
  rcases extract_typeOrder trees branches built real same with ⟨f, g, left, -⟩ | ⟨x, y, left, right, equivalent⟩
  · rw [left] at types
    cases types.1
  · obtain ⟨forwards, backwards, pure⟩ := equivalent
    rw [left, right] at types
    exact ⟨x, y, left, right, forwards, backwards, pure, Option.some.inj types.1,
      Option.some.inj types.2⟩

end DocSchema
