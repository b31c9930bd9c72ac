import DocSchema.Proofs.Concurring
import DocSchema.Proofs.Runs
import DocSchema.Proofs.Tables
import DocSchema.Proofs.Views

set_option autoImplicit false

namespace DocSchema

def SchemaNode.Resembles (m n : SchemaNode) : Prop :=
  m.shape.Resembles Eq n.shape

theorem SchemaNode.Resembles.reference_iff {m n : SchemaNode} (same : m.Resembles n)
    (name : Bytes) :
    m.shape = .reference name ↔ n.shape = .reference name := by
  obtain equal | ⟨v, w, left, right, -⟩ := Shape.Resembles.eq_or_literal same
  · rw [equal]
  · rw [left, right]
    exact ⟨nofun, nofun⟩

/-- Whether types that resemble each other come from one place. -/
def PlacedType.Resembles (t u : PlacedType) : Prop :=
  t.origin = u.origin ∧ t.node.Resembles u.node

namespace Layout

variable {α β γ δ : Type} {related : α → β → Prop} {relates : γ → δ → Prop}

/-- Whether two layouts, from tables of types that resemble each other, lead to such tables and to
related results. -/
def Agree (related : α → β → Prop) (x : Layout α) (y : Layout β) : Prop :=
  ∀ before before' : Array PlacedType,
    List.Forall₂ PlacedType.Resembles before.toList before'.toList →
    related (x.run before).1 (y.run before').1 ∧
      List.Forall₂ PlacedType.Resembles (x.run before).2.toList (y.run before').2.toList

namespace Agree

theorem pure {a : α} {b : β} (same : related a b) : Agree related (pure a) (pure b) :=
  fun _ _ tables => ⟨same, tables⟩

theorem bind {x : Layout α} {y : Layout β} {f : α → Layout γ} {g : β → Layout δ}
    (first : Agree related x y)
    (further : ∀ a b, related a b → Agree relates (f a) (g b)) :
    Agree relates (x >>= f) (y >>= g) := by
  intro before before' tables
  obtain ⟨same, between⟩ := first before before' tables
  exact further _ _ same _ _ between

end Agree

end Layout

namespace Declaration

open Layout (Agree)

theorem place_agree {s t : Shape SchemaId} (shapes : s.Resembles Eq t) (origin : Path)
    (m n : Metadata) :
    Agree Eq (place origin s m) (place origin t n) := by
  intro before before' tables
  refine ⟨?_, ?_⟩
  · exact tables.length_eq
  · change List.Forall₂ _ (before.push _).toList (before'.push _).toList
    rw [Array.toList_push, Array.toList_push]
    exact List.rel_append tables (.cons ⟨rfl, shapes⟩ .nil)

section Below

variable {R : Declaration → Declaration → Prop} (below : ∀ d e, R d e → Agree Eq d.layOut e.layOut)
include below

theorem layOutFields_agree {fs gs : List (Field Declaration)}
    (fields : List.Forall₂ (Field.Resembles R) fs gs) :
    Agree (List.Forall₂ (Field.Resembles Eq)) (layOutFields fs) (layOutFields gs) := by
  induction fields with
  | nil => exact .pure .nil
  | @cons f g fs gs first rest ih =>
      obtain ⟨name, d, isOptional⟩ := f
      obtain ⟨name', e, isOptional'⟩ := g
      obtain ⟨rfl, rfl, schema⟩ := first
      rw [layOutFields, layOutFields]
      exact (below d e schema).bind
        fun _ _ id => ih.bind fun _ _ ids => .pure (.cons ⟨rfl, rfl, id⟩ ids)

theorem layOutList_agree {ds es : List Declaration} (elements : List.Forall₂ R ds es) :
    Agree (List.Forall₂ Eq) (layOutList ds) (layOutList es) := by
  induction elements with
  | nil => exact .pure .nil
  | cons first rest ih =>
      rw [layOutList, layOutList]
      exact (below _ _ first).bind fun _ _ id => ih.bind fun _ _ ids => .pure (.cons id ids)

theorem layOutVariants_agree {vs ws : List (Variant Declaration)}
    (variants : List.Forall₂ (Variant.Resembles R) vs ws) :
    Agree (List.Forall₂ (Variant.Resembles Eq)) (layOutVariants vs) (layOutVariants ws) := by
  induction variants with
  | nil => exact .pure .nil
  | @cons v w vs ws first rest ih =>
      obtain ⟨name, d⟩ := v
      obtain ⟨name', e⟩ := w
      obtain ⟨rfl, schema⟩ := first
      rw [layOutVariants, layOutVariants]
      exact (below d e schema).bind fun _ _ id => ih.bind fun _ _ ids => .pure (.cons ⟨rfl, id⟩ ids)

theorem layOutShape_agree {s t : Shape Declaration} (shapes : s.Resembles R t) :
    Agree (Shape.Resembles Eq) (layOutShape s) (layOutShape t) := by
  cases shapes with
  | literal indiscernible => exact .pure (.literal indiscernible)
  | record allowsUnknown fields =>
      exact (layOutFields_agree below fields).bind
        fun _ _ fields => .pure (.record allowsUnknown fields)
  | array length isUnique items =>
      exact (below _ _ items).bind fun _ _ items => .pure (.array length isUnique items)
  | map size keys values =>
      exact (below _ _ keys).bind fun _ _ keys => (below _ _ values).bind fun _ _ values =>
        .pure (.map size keys values)
  | tuple elements =>
      exact (layOutList_agree below elements).bind fun _ _ elements => .pure (.tuple elements)
  | union representation variants =>
      exact (layOutVariants_agree below variants).bind
        fun _ _ variants => .pure (.union representation variants)
  | _ => exact .pure (by constructor)

end Below

/-- Declarations that resemble each other are laid out alike. -/
theorem Resembles.layOut {d e : Declaration} (same : d.Resembles e) :
    Agree Eq d.layOut e.layOut := by
  induction same with
  | node origin shapes below m n ih =>
      rw [Declaration.layOut, Declaration.layOut]
      exact (layOutShape_agree ih shapes).bind fun _ _ shapes => place_agree shapes origin m n

end Declaration

/-- Whether two named types are the same but for metadata and for literals that are not told
apart. -/
structure NamedType.Resembles (t u : NamedType) : Prop where
  name : t.name = u.name
  declaration : t.declaration.Resembles u.declaration
  naming : t.naming = u.naming

namespace Schema

theorem define?_getD (s : Schema) (name : Bytes) (id : SchemaId) :
    ((s.define? name id).getD s).types =
      (if (s.find? name).isSome then s.types else s.types ++ [(name, id)]) ∧
      ((s.define? name id).getD s).nodes = s.nodes ∧
      ((s.define? name id).getD s).root = s.root := by
  cases known : s.find? name with
  | none =>
      obtain ⟨s', defined, types, nodes, root⟩ := define?_fresh known id
      rw [defined]
      exact ⟨types, nodes, root⟩
  | some taken =>
      have refused : s.define? name id = none := by
        unfold define?
        split
        · rfl
        · next fresh => cases known.symm.trans fresh
      rw [refused]
      exact ⟨rfl, rfl, rfl⟩

theorem defineAll_keeps (s : Schema) (entries : List (Bytes × SchemaId)) :
    (s.defineAll entries).nodes = s.nodes ∧ (s.defineAll entries).root = s.root := by
  induction entries generalizing s with
  | nil => exact ⟨rfl, rfl⟩
  | cons entry entries ih =>
      obtain ⟨-, nodes, root⟩ := s.define?_getD entry.1 entry.2
      rw [← nodes, ← root]
      exact ih _

/-- What is registered does not depend on the types that are registered. -/
theorem defineAll_types {s t : Schema} (types : s.types = t.types)
    (entries : List (Bytes × SchemaId)) :
    (s.defineAll entries).types = (t.defineAll entries).types := by
  induction entries generalizing s t with
  | nil => exact types
  | cons entry entries ih =>
      refine ih ?_
      rw [(s.define?_getD entry.1 entry.2).1, (t.define?_getD entry.1 entry.2).1, find?, find?,
        types]

end Schema

namespace Declarations

/-- Whether two sources declare types that resemble each other, in one order. -/
structure Resembles (d e : Declarations) : Prop where
  types : List.Forall₂ NamedType.Resembles d.types e.types
  naming : d.naming = e.naming
  root : d.root.Resembles e.root

theorem namedTypes_concurs (path : Path) (seen : List Bytes) {es fs : List (Key × Value)}
    (entries : List.Forall₂ (fun e f => e.1 = f.1 ∧ e.2.Shuffles f.2) es fs) :
    Concur (List.Forall₂ NamedType.Resembles) (namedTypes path seen es)
      (namedTypes path seen fs) := by
  induction entries generalizing seen with
  | nil => exact .ok .nil
  | @cons e f es fs first rest ih =>
      obtain ⟨key, v⟩ := e
      obtain ⟨key', w⟩ := f
      obtain ⟨rfl, shuffled⟩ : key = key' ∧ v.Shuffles w := first
      rw [namedTypes, namedTypes]
      split
      · exact .error _ _
      · next name spelled =>
        refine (Declaration.ofValue_concurs v w _ .typeEntry shuffled).bind
          fun d e declaration => ?_
        split
        · exact .error _ _
        · rw [Naming.ofValue_shuffled shuffled]
          exact .bind_same fun naming => (ih (name :: seen)).bind fun _ _ types =>
            .ok (.cons ⟨rfl, declaration, rfl⟩ types)

theorem typesOf_concurs {v w : Value} (shuffled : v.Shuffles w) :
    Concur (List.Forall₂ NamedType.Resembles) (typesOf v) (typesOf w) := by
  unfold typesOf
  dsimp only
  rcases eq_of_rel (shuffled.directive? .types) with ⟨none, none'⟩ | ⟨u, u', some, some', types⟩
  · rw [none, none']
    exact .ok .nil
  · have contents := types.contents
    rw [some, some']
    dsimp only
    generalize u.content = c, u'.content = d at contents
    cases contents with
    | map entries => exact namedTypes_concurs _ [] entries
    | _ => exact .error _ _

theorem ofValue_concurs {v w : Value} (shuffled : v.Shuffles w) :
    Concur Resembles (ofValue v) (ofValue w) := by
  rw [ofValue, ofValue, Naming.ofValue_shuffled shuffled]
  exact (typesOf_concurs shuffled).bind fun _ _ types => .bind_same fun naming =>
    (Declaration.ofValue_concurs v w [] .root shuffled).bind fun _ _ root => .ok ⟨types, rfl, root⟩

variable {d e : Declarations}

open Layout (Agree)

theorem Resembles.layOut (same : d.Resembles e) : Agree Eq d.layOut e.layOut := by
  have types : Agree Eq (d.types.mapM fun t => t.declaration.layOut)
      (e.types.mapM fun t => t.declaration.layOut) := by
    have types := same.types
    generalize d.types = ts, e.types = us at types
    induction types with
    | nil => exact .pure rfl
    | cons first rest ih =>
        rw [List.mapM_cons, List.mapM_cons]
        exact first.declaration.layOut.bind
          fun _ _ id => ih.bind fun _ _ ids => .pure (id ▸ ids ▸ rfl)
  exact types.bind fun _ _ ids => same.root.layOut.bind fun _ _ root => .pure (ids ▸ root ▸ rfl)

def unregistered (d : Declarations) : Schema where
  nodes := (d.layOut.run #[]).2.map (·.node)
  root := (d.layOut.run #[]).1.2
  naming := d.naming
  typeNaming := Dictionary.ofList (d.types.map fun t => (t.name, t.naming))

theorem table_eq (d : Declarations) : d.table =
    ((d.layOut.run #[]).2,
      d.unregistered.defineAll ((d.types.map (·.name)).zip (d.layOut.run #[]).1.1)) :=
  rfl

/-- The tables have types that resemble each other under the same ids, and the same names. -/
theorem Resembles.table (same : d.Resembles e) :
    List.Forall₂ PlacedType.Resembles d.table.1.toList e.table.1.toList ∧
      d.table.2.Corresponds SchemaNode.Resembles e.table.2 ∧ d.table.2.root = e.table.2.root := by
  obtain ⟨laid, tables⟩ := same.layOut #[] #[] .nil
  have names : d.types.map (·.name) = e.types.map (·.name) := by
    rw [← List.forall₂_eq_eq_eq, List.forall₂_map_left_iff, List.forall₂_map_right_iff]
    exact same.types.imp fun {t u} same => same.name
  rw [table_eq, table_eq, laid, names]
  obtain ⟨nodes, root⟩ :=
    d.unregistered.defineAll_keeps ((e.types.map (·.name)).zip (e.layOut.run #[]).1.1)
  obtain ⟨nodes', root'⟩ :=
    e.unregistered.defineAll_keeps ((e.types.map (·.name)).zip (e.layOut.run #[]).1.1)
  refine ⟨tables, ⟨?_, fun id => ?_, ?_, ?_⟩, ?_⟩
  · rw [Schema.size, Schema.size, nodes, nodes']
    simpa [unregistered] using tables.length_eq
  · rw [Schema.node?, Schema.node?, nodes, nodes']
    simp only [unregistered, Array.getElem?_map]
    rw [← Array.getElem?_toList, ← Array.getElem?_toList]
    exact rel_map? (rel_getElem? tables id) fun t u same => same.2
  · exact Schema.defineAll_types (s := d.unregistered) (t := e.unregistered) rfl _
  · exact fun m n same name => same.reference_iff name
  · rw [root, root', unregistered, unregistered, laid]

/-- The same types are declared, so the same reference, if any, is not. -/
theorem undefined?_eq {placed placed' : Array PlacedType} {s t : Schema}
    (tables : List.Forall₂ PlacedType.Resembles placed.toList placed'.toList)
    (schemas : s.Corresponds SchemaNode.Resembles t) :
    undefined? placed s = undefined? placed' t := by
  unfold undefined?
  generalize placed.toList = before, placed'.toList = before' at tables
  induction tables with
  | nil => rfl
  | @cons t u before before' first rest ih =>
      obtain ⟨origin, shapes⟩ := first
      rw [List.findSome?_cons, List.findSome?_cons, ih]
      obtain equal | ⟨v, w, left, right, -⟩ := Shape.Resembles.eq_or_literal shapes
      · simp only [equal, origin, schemas.find?_eq]
      · simp only [left, right]

end Declarations

/-- Values whose extensions are in another order both declare no schema, or declare schemas that
correspond. -/
theorem extractValue_concurs {v w : Value} (shuffled : v.Shuffles w) :
    Concur (fun x y => x.schema.Corresponds SchemaNode.Resembles y.schema ∧
      x.schema.root = y.schema.root)
      (extractValue v) (extractValue w) := by
  refine (Declarations.ofValue_concurs shuffled).bind fun d e same => ?_
  obtain ⟨tables, schemas, root⟩ := same.table
  dsimp only
  rw [Declarations.undefined?_eq tables schemas]
  split
  · exact .error _ _
  · exact .ok ⟨schemas, root⟩

/-- What an error tells: its kind, the path of the value and the text. -/
def Finding.told (dump? : Json.Writer) (f : Finding) : Bytes × Path × Option Bytes :=
  (f.mismatch.kind, f.path, f.mismatch.title? dump?)

/-- What a report tells about a value: its errors, whether some were left out, and whether a value
is missing. -/
def Report.told (dump? : Json.Writer) (r : Report) :
    List (Bytes × Path × Option Bytes) × Bool × Bool :=
  (r.errors.map (Finding.told dump?), r.isTruncated, r.isIncomplete)

/-- What is told of errors, the variants that were selected, and whether a value is missing. -/
def Findings.toldView (dump? : Json.Writer) :
    Findings.View (List (Bytes × Path × Option Bytes) × List Selection × Bool) where
  look f := (f.errors.map (Finding.told dump?), f.selections, f.isIncomplete)
  join p q := (p.1 ++ q.1, p.2.1 ++ q.2.1, p.2.2 || q.2.2)
  look_append f g := by simp [Findings.append_def]
  isEmpty_errors f g same := by
    have errors := congrArg (fun p => p.1.isEmpty) same
    simpa using errors
  selections _ _ same := congrArg (·.2.1) same

/-- Literals that are printed alike are told alike. -/
theorem toldView_overlooks (dump? : Json.Writer) :
    (Findings.toldView dump?).congruence.Overlooks SchemaNode.Resembles where
  shape _ _ same := same
  literal m n same v w left right path := by
    have shapes : m.shape.Resembles Eq n.shape := same
    rw [left, right] at shapes
    cases shapes with
    | literal indiscernible =>
        have title : (Mismatch.wrongLiteral v).title? dump? =
            (Mismatch.wrongLiteral w).title? dump? := by
          rw [Mismatch.title?, Mismatch.title?, indiscernible.text]
        have told : Finding.told dump? ⟨path, .wrongLiteral v⟩ =
            Finding.told dump? ⟨path, .wrongLiteral w⟩ :=
          congrArg (fun title => (utf8 "LiteralMismatch", path, title)) title
        exact congrArg (fun told => Except.ok ((), [told], [], false)) told
  deprecation isDeprecated isDeprecated' path := by cases isDeprecated <;> cases isDeprecated' <;>
    rfl
  accepts _ _ same := same.accepts

theorem validate_told {s t : Schema} (same : s.Corresponds SchemaNode.Resembles t)
    (root : s.root = t.root) (dump? : Json.Writer) (d : Document) (settings : Settings) :
    (validate d s settings).map (Report.told dump?) =
      (validate d t settings).map (Report.told dump?) := by
  have reports (schema : Schema) : (validate d schema settings).map (Report.told dump?) =
      ((findingsOf d.value schema schema.root settings).map (Findings.toldView dump?).look).map
        fun shown =>
        (if settings.maxErrors = 0 then shown.1 else shown.1.take settings.maxErrors,
          settings.maxErrors != 0 && settings.maxErrors < shown.1.length, shown.2.2) := by
    change (validateValue d.value schema schema.root settings).map (Report.told dump?) = _
    rw [validateValue_eq]
    cases findingsOf d.value schema schema.root settings with
    | error e => rfl
    | ok f => simp [Except.map, toReport_add, Report.told, Findings.toldView, apply_ite]
  rw [reports, reports, root]
  exact congrArg _ ((Findings.toldView dump?).findingsOf (toldView_overlooks dump?) same d.value t.root settings)

/-- The order of extensions makes no difference, as long as those that compete keep theirs: two
documents that differ in nothing else both declare no schema, or declare schemas by which every
document has the same errors, of which as many are left out, and is as complete. -/
theorem extract_shuffled (d e : Document) (shuffled : d.value.Shuffles e.value) :
    (∃ f g, extract d = .error f ∧ extract e = .error g) ∨
      ∃ x y, extract d = .ok x ∧ extract e = .ok y ∧
        ∀ (dump? : Json.Writer) (document : Document) (settings : Settings),
          (validate document x.schema settings).map (Report.told dump?) =
            (validate document y.schema settings).map (Report.told dump?) := by
  have same := extractValue_concurs shuffled
  rw [extract, extract]
  cases left : extractValue d.value <;> cases right : extractValue e.value <;>
    rw [left, right] at same
  case error.error f g => exact .inl ⟨f, g, rfl, rfl⟩
  case ok.ok x y =>
    cases same with
    | some corresponds =>
        exact .inr ⟨x, y, rfl, rfl, validate_told corresponds.1 corresponds.2⟩
  all_goals cases same

/-- Whether two nodes differ in nothing but the order of their extensions, where those that compete
are in the same order. They hold each extension once. -/
structure Node.Shuffles {α : Type} (n m : Node α) : Prop where
  content : n.content = m.content
  extensions : n.extensions.Perm m.extensions
  distinct : (m.extensions.map (·.1)).Nodup
  order : Constraint.contested (n.extensions.map (·.1)) =
    Constraint.contested (m.extensions.map (·.1))

/-- Documents that differ in nothing but the order of the extensions of their nodes have such
values. -/
theorem Document.value_shuffles {d e : Document} (size : d.size = e.size)
    (nodes : ∀ id, (d.node id).Shuffles (e.node id)) : d.value.Shuffles e.value := by
  have levels (depth : Nat) (id : NodeId) : (d.valueTo depth id).Shuffles (e.valueTo depth id) := by
    induction depth generalizing id with
    | zero =>
        exact .node (R := Value.Shuffles) .hole (.of_forall₂ .nil) List.nodup_nil rfl
          fun _ _ same => same
    | succ depth ih =>
        have names (document : Document) (x : List (Bytes × NodeId)) :
            (x.map fun item => (item.1, document.valueTo depth item.2)).map (·.1) =
              x.map (·.1) := by
          rw [List.map_map]
          rfl
        have parts : ((d.node id).content.mapParts (d.valueTo depth)).Related Value.Shuffles
            ((e.node id).content.mapParts (e.valueTo depth)) :=
              (nodes id).content ▸ .mapParts fun part _ => ih part
        have each : List.Forall₂ (fun x y => x.1 = y.1 ∧ x.2.Shuffles y.2)
            ((d.node id).extensions.map fun x => (x.1, d.valueTo depth x.2))
            ((d.node id).extensions.map fun x => (x.1, e.valueTo depth x.2)) := by
          rw [List.forall₂_map_left_iff, List.forall₂_map_right_iff]
          exact List.forall₂_same.2 fun x _ => ⟨rfl, ih x.2⟩
        refine .node parts ⟨_, each, (nodes id).extensions.map _⟩ ?_ ?_ fun _ _ same => same
        · exact (names e _).symm ▸ (nodes id).distinct
        · exact ((names d _).symm ▸ (names e _).symm ▸ (nodes id).order)
  rw [value, value, valueAt, valueAt, size]
  exact levels e.size root

/-- A record of a name and an age, which have the given extensions. -/
private def form (name age : List (Bytes × NodeId)) : Document :=
  ⟨#[⟨.map [(.ident "name", 1), (.ident "age", 4)], []⟩,
    ⟨.primitive (.text ⟨"text", .implicit⟩), name⟩,
    ⟨.primitive (.int 2), []⟩, ⟨.primitive (.int 9), []⟩,
    ⟨.primitive (.text ⟨"integer", .implicit⟩), age⟩,
    ⟨.tuple [6, 7], []⟩, ⟨.primitive (.int 0), []⟩, ⟨.primitive (.int 99), []⟩,
    ⟨.primitive (.int 18), []⟩,
    ⟨.primitive (.int 3), []⟩]⟩

private theorem form_shuffles {name name' age age' : List (Bytes × NodeId)}
    (names : Node.Shuffles ⟨.hole, name⟩ ⟨.hole, name'⟩)
    (ages : Node.Shuffles ⟨.hole, age⟩ ⟨.hole, age'⟩) :
    (form name age).value.Shuffles (form name' age').value := by
  refine Document.value_shuffles rfl fun id => ?_
  rcases id with _ | _ | _ | _ | _ | _ | _ | _ | _ | _ | id
  case succ.zero => exact ⟨rfl, names.extensions, names.distinct, names.order⟩
  case succ.succ.succ.succ.zero => exact ⟨rfl, ages.extensions, ages.distinct, ages.order⟩
  all_goals exact ⟨rfl, .refl _, List.nodup_nil, rfl⟩

/-- The minimum is set after the range, which it narrows. -/
private def adults : Document :=
  form [("min-length", 2), ("max-length", 3)] [("range", 5), ("minimum", 8), ("multiple-of", 9)]

private def adults' : Document :=
  form [("max-length", 3), ("min-length", 2)] [("multiple-of", 9), ("range", 5), ("minimum", 8)]

private def anyone : Document :=
  form [("min-length", 2), ("max-length", 3)] [("minimum", 8), ("range", 5), ("multiple-of", 9)]

private def child : Document :=
  ⟨#[⟨.map [(.ident "name", 1), (.ident "age", 2)], []⟩,
    ⟨.primitive (.text ⟨"Ada", .plaintext⟩), []⟩,
    ⟨.primitive (.int 9), []⟩]⟩

private instance : DecidableEq (List (Bytes × Path × Option Bytes) × Bool × Bool) :=
  instDecidableEqProd

/-- A child is too young, whether its age is to be a multiple before or after it is to be in a
range. -/
theorem extract_shuffled_form : adults.value.Shuffles adults'.value ∧
    ∃ x y, extract adults = .ok x ∧ extract adults' = .ok y ∧
      (validate child x.schema {}).map (Report.told Json.compact) =
        (validate child y.schema {}).map (Report.told Json.compact) ∧
      ((validate child x.schema {}).map (Report.told Json.compact)).toOption =
        some ([(utf8 "OutOfRange", [.ident "age"], some (utf8 "9 is outside the range [18, 99]"))],
          false, false) := by
  have shuffled : adults.value.Shuffles adults'.value :=
    form_shuffles ⟨rfl, by decide, by decide, by decide +kernel⟩
      ⟨rfl, by decide, by decide, by decide +kernel⟩
  rcases extract_shuffled adults adults' shuffled with ⟨f, g, failed, -⟩ | ⟨x, y, left, right, same⟩
  · have extracted : (extract adults).toOption.isSome = true := by decide +kernel
    rw [failed] at extracted
    cases extracted
  · have told : ((extract adults).toOption.bind fun x =>
        ((validate child x.schema {}).map (Report.told Json.compact)).toOption) =
        some ([(utf8 "OutOfRange", [.ident "age"], some (utf8 "9 is outside the range [18, 99]"))],
          false, false) := by
      decide +kernel
    rw [left] at told
    exact ⟨shuffled, x, y, left, right, same Json.compact child {}, told⟩

/-- If the range is set after the minimum, then the minimum is lost and the child is old enough. -/
example : ((extract anyone).toOption.bind fun x =>
    ((validate child x.schema {}).map (Report.told Json.compact)).toOption) =
      some ([], false, false) := by
  decide +kernel

end DocSchema
