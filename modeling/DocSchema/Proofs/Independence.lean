import DocSchema.Extraction
import DocSchema.Proofs.Projection

set_option autoImplicit false

namespace DocSchema

/-- Whether two contents are of one form with the same keys, and their parts are related in
order. -/
inductive Content.Related {α β : Type} (R : α → β → Prop) : Content α → Content β → Prop
  | hole : Related R .hole .hole
  | primitive (p : Primitive) : Related R (.primitive p) (.primitive p)
  | map {es : List (Key × α)} {fs : List (Key × β)}
      (entries : List.Forall₂ (fun e f => e.1 = f.1 ∧ R e.2 f.2) es fs) :
      Related R (.map es) (.map fs)
  | array {as : List α} {bs : List β} (items : List.Forall₂ R as bs) :
      Related R (.array as) (.array bs)
  | tuple {as : List α} {bs : List β} (elements : List.Forall₂ R as bs) :
      Related R (.tuple as) (.tuple bs)

theorem Content.Related.imp {α β : Type} {R S : α → β → Prop} {c : Content α} {d : Content β}
    (related : c.Related R d)
    (each : ∀ a b, R a b → S a b) : c.Related S d := by
  cases related with
  | hole => exact .hole
  | primitive p => exact .primitive p
  | map entries => exact .map (entries.imp fun {e f} same => ⟨same.1, each _ _ same.2⟩)
  | array items => exact .array (items.imp fun {a b} => each a b)
  | tuple elements => exact .tuple (elements.imp fun {a b} => each a b)

/-- Whether a primitive is data: it is no type expression. -/
def Primitive.IsData (p : Primitive) : Prop :=
  (Content.primitive p : Content Value).typeExpression? = none

namespace Value

/-- Whether two values are the same except for data in entries of maps, in elements, or at the root
itself. Their extensions are the same. -/
inductive SameButData : Value → Value → Prop
  | data {p q : Primitive} (left : p.IsData) (right : q.IsData)
      (extensions : List (Bytes × Value)) :
      SameButData (.node (.primitive p) extensions) (.node (.primitive q) extensions)
  | node {c d : Content Value} {R : Value → Value → Prop} (contents : c.Related R d)
      (below : ∀ v w, R v w → SameButData v w) (extensions : List (Bytes × Value)) :
      SameButData (.node c extensions) (.node d extensions)

section Contents

variable {c d : Content Value}

theorem sizeContent_congr (related : c.Related (fun v w => v.size = w.size) d) :
    sizeContent c = sizeContent d := by
  cases related with
  | hole | primitive => rfl
  | map entries =>
      simp only [sizeContent]
      induction entries with
      | nil => rfl
      | cons first rest further => simp only [sizeEntries, first.2, further]
  | array items | tuple items =>
      simp only [sizeContent]
      induction items with
      | nil => rfl
      | cons first rest further => simp only [sizeList, first, further]

theorem isDeclaredContent_congr (related : c.Related (fun v w => v.isDeclared = w.isDeclared) d) :
    isDeclaredContent c = isDeclaredContent d := by
  cases related with
  | hole | primitive | array => rfl
  | map entries =>
      simp only [isDeclaredContent]
      induction entries with
      | nil => rfl
      | cons first rest further => simp only [isDeclaredEntries, first.2, further]
  | tuple items =>
      simp only [isDeclaredContent]
      induction items with
      | nil => rfl
      | cons first rest further => simp only [isDeclaredList, first, further]

theorem holdsDataContent_congr (related : c.Related (fun v w => v.holdsData = w.holdsData) d) :
    holdsDataContent c = holdsDataContent d := by
  have listed {vs ws : List Value}
      (items : List.Forall₂ (fun v w => v.holdsData = w.holdsData) vs ws) :
      holdsDataList vs = holdsDataList ws := by
    induction items with
    | nil => rfl
    | cons first rest further => rw [holdsDataList, holdsDataList, first, further]
  cases related with
  | hole | primitive => rfl
  | map entries =>
      simp only [holdsDataContent]
      induction entries with
      | nil => rfl
      | cons first rest further => simp only [holdsDataEntries, first.2, further]
  | array items =>
      have data := listed items
      cases items <;> simp only [holdsDataContent, data, List.isEmpty]
  | tuple items => exact listed items

end Contents

namespace SameButData

variable {v w : Value}

theorem extensions_eq (same : v.SameButData w) : v.extensions = w.extensions := by
  cases same <;> rfl

theorem extension?_eq (same : v.SameButData w) (name : Bytes) :
    v.extension? name = w.extension? name := by
  simp only [extension?, Node.extension?, root, same.extensions_eq]

theorem directive?_eq (same : v.SameButData w) (a : Directive) : v.directive? a = w.directive? a :=
  same.extension?_eq a.name

theorem typeExpression?_eq (same : v.SameButData w) :
    v.content.typeExpression? = w.content.typeExpression? := by
  cases same with
  | data left right extensions => exact left.trans right.symm
  | node contents below extensions => cases contents <;> rfl

theorem size_eq (same : v.SameButData w) : v.size = w.size := by
  induction same with
  | data left right extensions => rfl
  | node contents below extensions ih => simp only [size, sizeContent_congr (contents.imp ih)]

theorem isDeclared_eq (same : v.SameButData w) : v.isDeclared = w.isDeclared := by
  induction same with
  | data left right extensions => simp only [isDeclared, isDeclaredContent, left.trans right.symm]
  | node contents below extensions ih =>
      have expression := (SameButData.node contents below extensions).typeExpression?_eq
      simp only [content] at expression
      simp only [isDeclared, isDeclaredContent_congr (contents.imp ih), expression]

theorem holdsData_eq (same : v.SameButData w) : v.holdsData = w.holdsData := by
  induction same with
  | data left right extensions => exact congrArg Option.isNone (left.trans right.symm)
  | node contents below extensions ih => exact holdsDataContent_congr (contents.imp ih)

end SameButData

end Value

namespace Declaration

/-- Whether a reader reads the same from values that are the same but for data. -/
def Reader.IgnoresData (read : Reader) : Prop :=
  ∀ v w path placement, v.SameButData w → read v path placement = read w path placement

variable {read : Reader} {v w : Value}

section Parts

variable {R : Value → Value → Prop} (below : ∀ v w, R v w → v.SameButData w)
include below

theorem tupleElements_eq (ignores : read.IgnoresData) (path : Path) (index : UInt8)
    {vs ws : List Value}
    (elements : List.Forall₂ R vs ws) :
    tupleElements read path index vs = tupleElements read path index ws := by
  induction elements generalizing index with
  | nil => rfl
  | @cons v w vs ws first rest ih =>
      have same := below v w first
      simp only [tupleElements, same.isDeclared_eq, ignores v w _ _ same, ih]

theorem recordFields_eq (ignores : read.IgnoresData) (path : Path) (seen : List Bytes)
    {es fs : List (Key × Value)} (entries : List.Forall₂ (fun e f => e.1 = f.1 ∧ R e.2 f.2) es fs) :
    recordFields read path seen es = recordFields read path seen fs := by
  induction entries generalizing seen with
  | nil => rfl
  | @cons e f es fs first rest ih =>
      obtain ⟨key, v⟩ := e
      obtain ⟨key', w⟩ := f
      obtain ⟨rfl, related⟩ : key = key' ∧ R v w := first
      have same := below v w related
      have optional : optionalFlag v = optionalFlag w := by
        funext path
        rw [optionalFlag, optionalFlag, same.directive?_eq]
      simp only [recordFields, same.isDeclared_eq, ignores v w _ _ same, optional, ih]

end Parts

theorem unannotated_eq (ignores : read.IgnoresData) (same : v.SameButData w) (path : Path)
    (placement : Placement) :
    unannotated read v path placement = unannotated read w path placement := by
  have declared := same.isDeclared_eq
  have policy : unknownFieldsPolicy v path = unknownFieldsPolicy w path := by
    rw [unknownFieldsPolicy, unknownFieldsPolicy, same.directive?_eq]
  rw [unannotated, unannotated, same.typeExpression?_eq, declared, policy]
  cases same with
  | data left right extensions => rfl
  | node contents below extensions =>
      cases contents with
      | hole | primitive | array => rfl
      | map entries => simp only [Value.content, recordFields_eq below ignores path [] entries]
      | tuple elements => simp only [Value.content, tupleElements_eq below ignores path 0 elements]

theorem annotated_eq (same : v.SameButData w) (a : Directive) (held : Value) (path : Path) :
    annotated read v a held path = annotated read w a held path := by
  have members : union read v held path = union read w held path := by
    rw [union, union, same.directive?_eq]
  cases a <;> simp only [annotated, members]

/-- What conflicts with a directive is a type expression, which is the same in both. -/
theorem describe_eq (same : v.SameButData w) (expression : w.content.typeExpression? ≠ none) :
    v.content.primitive? = w.content.primitive? := by
  cases same with
  | data left right extensions => exact absurd right expression
  | node contents below extensions => cases contents <;> rfl

theorem base_eq (ignores : read.IgnoresData) (same : v.SameButData w) (path : Path)
    (placement : Placement) :
    base read v path placement = base read w path placement := by
  have directives : (fun a => (v.directive? a).map fun held => (a, held)) =
      fun a => (w.directive? a).map fun held => (a, held) := by
    funext a
    rw [same.directive?_eq]
  rw [base, base, directives]
  split
  · rw [unannotated_eq ignores same]
  · rw [same.typeExpression?_eq]
    split
    · exact annotated_eq same _ _ path
    · next expression =>
      rw [describe_eq same (by simp [expression])]
  · rfl

theorem readWith_ignores (ignores : read.IgnoresData) : (readWith read).IgnoresData := by
  intro v w path placement same
  rw [readWith, readWith, base_eq ignores same, same.extensions_eq]

theorem readTo_ignores (depth : Nat) : (readTo depth).IgnoresData := by
  induction depth with
  | zero => exact fun _ _ _ _ _ => rfl
  | succ depth ih => exact readWith_ignores ih

theorem ofValue_ignores : Reader.IgnoresData ofValue := by
  intro v w path placement same
  rw [ofValue, ofValue, same.size_eq]
  exact readTo_ignores w.size v w path placement same

end Declaration

theorem extractValue_eq {v w : Value} (same : v.SameButData w) :
    extractValue v = extractValue w := by
  have types : Declarations.typesOf v = Declarations.typesOf w := by
    rw [Declarations.typesOf, Declarations.typesOf, same.directive?_eq]
  have naming : Naming.ofValue v [] = Naming.ofValue w [] := by
    rw [Naming.ofValue, Naming.ofValue, same.extension?_eq, same.extension?_eq]
  have declarations : Declarations.ofValue v = Declarations.ofValue w := by
    rw [Declarations.ofValue, Declarations.ofValue, types, naming,
      Declaration.ofValue_ignores v w [] .root same]
  rw [extractValue, extractValue, declarations, same.holdsData_eq]

theorem Content.Related.mapParts {α β γ : Type} {R : β → γ → Prop} {c : Content α} {f : α → β}
    {g : α → γ}
    (each : ∀ a ∈ c.parts, R (f a) (g a)) : (c.mapParts f).Related R (c.mapParts g) := by
  have items {as : List α} (each : ∀ a ∈ as, R (f a) (g a)) :
      List.Forall₂ R (as.map f) (as.map g) := by
    rw [List.forall₂_map_left_iff, List.forall₂_map_right_iff]
    exact List.forall₂_same.2 each
  cases c with
  | hole => exact .hole
  | primitive p => exact .primitive p
  | map es =>
      refine .map ?_
      rw [List.forall₂_map_left_iff, List.forall₂_map_right_iff]
      exact List.forall₂_same.2 fun e inside => ⟨rfl, each e.2 (List.mem_map_of_mem inside)⟩
  | array as => exact .array (items each)
  | tuple as => exact .tuple (items each)

namespace Document

variable {d e : Document}

/-- Whether a node is stored under an extension, or below such a node. -/
inductive IsNoted (d : Document) : NodeId → Prop
  | extension {n part : NodeId} (stored : part ∈ (d.node n).extensions.map (·.2)) : IsNoted d part
  | part {n part : NodeId} (noted : IsNoted d n) (stored : part ∈ (d.node n).parts) : IsNoted d part

/-- Whether two documents are the same except for data, none of which is in an extension. -/
structure SameButData (d e : Document) : Prop where
  size : d.size = e.size
  nodes : ∀ id, d.node id = e.node id ∨ (¬ d.IsNoted id ∧ ∃ p q extensions, p.IsData ∧ q.IsData ∧
    d.node id = ⟨.primitive p, extensions⟩ ∧ e.node id = ⟨.primitive q, extensions⟩)

theorem SameButData.noted (same : d.SameButData e) (depth : Nat) (id : NodeId)
    (noted : d.IsNoted id) :
    d.valueTo depth id = e.valueTo depth id := by
  induction depth generalizing id with
  | zero => rfl
  | succ depth ih =>
      rcases same.nodes id with equal | ⟨unnoted, -⟩
      · have parts : (d.node id).mapParts (d.valueTo depth) =
            (d.node id).mapParts (e.valueTo depth) :=
          Node.mapParts_congr fun part stored => ih part (.part noted stored)
        rw [valueTo, valueTo, ← equal, parts]
      · exact absurd noted unnoted

theorem SameButData.valueTo (same : d.SameButData e) (depth : Nat) (id : NodeId) :
    (d.valueTo depth id).SameButData (e.valueTo depth id) := by
  induction depth generalizing id with
  | zero => exact .node (R := fun _ _ => False) .hole (fun _ _ related => related.elim) []
  | succ depth ih =>
      have extensions : (d.node id).extensions.map (fun x => (x.1, d.valueTo depth x.2)) =
          (d.node id).extensions.map fun x => (x.1, e.valueTo depth x.2) :=
        List.map_congr_left fun x stored =>
          congrArg (x.1, ·) (same.noted depth x.2 (.extension (List.mem_map_of_mem stored)))
      simp only [Document.valueTo, Node.mapParts, extensions]
      rcases same.nodes id with equal | ⟨-, p, q, x, data, data', node, node'⟩
      · rw [← equal]
        exact .node (.mapParts fun part _ => ih part) (fun _ _ related => related) _
      · rw [node, node']
        exact .data data data' _

/-- Documents that are the same except for data have values that are. -/
theorem SameButData.value (same : d.SameButData e) : d.value.SameButData e.value := by
  rw [Document.value, Document.value, valueAt, valueAt, ← same.size]
  exact same.valueTo d.size root

end Document

/-- Data never influences what is extracted: neither the schema nor the refusal to give one. -/
theorem extract_independent (d e : Document) (same : d.value.SameButData e.value) :
    extract d = extract e :=
  extractValue_eq same

/-- A named visitor and when the visits were. Only the name has a type. -/
def visitor (name visit : Primitive) : Document :=
  ⟨#[⟨.map [(.ident "name", 1), (.ident "visits", 3)], []⟩, ⟨.primitive name, [("type", 2)]⟩,
    ⟨.primitive (.text ⟨"text", .implicit⟩), []⟩, ⟨.array [4], []⟩, ⟨.primitive visit, []⟩]⟩

theorem isNoted_visitor {name visit : Primitive} {id : NodeId}
    (noted : (visitor name visit).IsNoted id) :
    id = 2 := by
  induction noted with
  | @extension n part stored =>
      rcases n with _ | _ | _ | _ | _ | n <;> simp_all [Document.node, visitor]
  | part noted stored ih =>
      subst ih
      cases stored

theorem visitor_sameButData {name name' visit visit' : Primitive}
    (data : name.IsData ∧ name'.IsData)
    (data' : visit.IsData ∧ visit'.IsData) :
    (visitor name visit).SameButData (visitor name' visit') where
  size := rfl
  nodes id := by
    rcases id with _ | _ | _ | _ | _ | id
    · exact .inl rfl
    · refine .inr ⟨fun noted => ?_, name, name', _, data.1, data.2, rfl, rfl⟩
      cases isNoted_visitor noted
    · exact .inl rfl
    · exact .inl rfl
    · refine .inr ⟨fun noted => ?_, visit, visit', _, data'.1, data'.2, rfl, rfl⟩
      cases isNoted_visitor noted
    · exact .inl rfl

/-- Who visited and when makes no difference to the type of visitors, a record with a text. -/
theorem extract_independent_visitor :
    extract (visitor (.text ⟨"Ada", .plaintext⟩) (.int 1815)) =
      extract (visitor .null (.text ⟨"any", .plaintext⟩)) ∧
      ((extract (visitor .null (.text ⟨"any", .plaintext⟩))).toOption.map fun e =>
        (e.schema.nodes.toList.map fun n => n.shape.kindName, e.isPure)) =
        some ([utf8 "text", utf8 "record"], false) :=
  ⟨extract_independent _ _ (visitor_sameButData ⟨by rfl, by rfl⟩ ⟨by rfl, by rfl⟩).value,
    by decide +kernel⟩

end DocSchema
