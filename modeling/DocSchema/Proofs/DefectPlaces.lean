import DocSchema.Proofs.Glances
import DocSchema.Proofs.LaidOut
import DocSchema.Proofs.Navigation

set_option autoImplicit false

namespace DocSchema

variable {d : Document} {path : Path} {v held : Value} {α β : Type}

namespace Document

/-- Where the path of a declaration leads, if the parts of a map type are the first ones of their
spelling. -/
inductive Arrives (d : Document) : Path → NodeId → Prop
  | root : Arrives d [] Document.root
  | step {path : Path} {k m : NodeId} {s : Segment} (arrives : Arrives d path k)
      (found : (d.node k).step? s = some m) : Arrives d (path ++ [s]) m
  | part {path : Path} {k held m : NodeId} {name : Bytes} (arrives : Arrives d path k)
      (holds : (d.node k).extension? Directive.map.name = some held)
      (named : name = utf8 "key" ∨ name = utf8 "value")
      (found : (d.node held).content.field? name = some m) :
      Arrives d (path ++ [.ext Directive.map.name] ++ [.ident name]) m

/-- Whether a path is that of a declaration or of a part of one. -/
def IsPlace (d : Document) (path : Path) : Prop :=
  ∃ m, d.Arrives path m

/-- Whether a value is that of a node to which the path of a declaration leads. -/
def HasAt (d : Document) (path : Path) (v : Value) : Prop :=
  ∃ m, d.Arrives path m ∧ v = d.valueAt m

/-- Whether a path comes by a map type the key or the value of which is stored under a text. -/
def StraysInMap (d : Document) (path : Path) : Prop :=
  ∃ before name rest k held entries child,
    path = before ++ .ext Directive.map.name :: .ident name :: rest ∧
    (name = utf8 "key" ∨ name = utf8 "value") ∧ d.resolve before Document.root = .ok k ∧
    (d.node k).extension? Directive.map.name = some held ∧ (d.node held).content = .map entries ∧
    entries.find? (fun e => e.1.spelling? == some name) = some (.literal (.text name), child)

theorem StraysInMap.append (strays : d.StraysInMap path) (more : Path) :
    d.StraysInMap (path ++ more) := by
  obtain ⟨before, name, rest, k, held, entries, child, rfl, other⟩ := strays
  exact ⟨before, name, rest ++ more, k, held, entries, child, by simp, other⟩

/-- What is found under a spelling is stored under the name, or else under the text. -/
theorem step?_of_field? (ordered : d.IsOrdered) {held m : NodeId} {name : Bytes}
    (found : (d.node held).content.field? name = some m) :
    (d.node held).step? (.ident name) = some m ∨ ∃ entries, (d.node held).content = .map entries ∧
      entries.find? (fun e => e.1.spelling? == some name) = some (.literal (.text name), m) := by
  obtain ⟨entries, map, look⟩ := Option.bind_eq_some_iff.1 found
  obtain ⟨⟨key, child⟩, first, rfl⟩ := Option.map_eq_some_iff.1 look
  have content : (d.node held).content = .map entries := by
    cases content : (d.node held).content <;> rw [content] at map <;> cases map
    rfl
  have spelled : key.spelling? = some name := by simpa using List.find?_some first
  cases key with
  | ident other =>
      cases spelled
      left
      rw [Node.step?, content]
      exact lookup?_of_mem ((ordered.orderly held).keys entries content)
        (List.mem_of_find?_eq_some first)
  | ext other => cases spelled
  | literal l =>
      cases l with
      | text s =>
          cases spelled
          exact .inr ⟨entries, content, first⟩
      | int i => cases spelled
      | bool b => cases spelled

/-- The path of a declaration resolves to its node, unless it strays. -/
theorem Arrives.resolves {m : NodeId} (ordered : d.IsOrdered) (arrives : d.Arrives path m) :
    d.resolve path Document.root = .ok m ∨ d.StraysInMap path := by
  induction arrives with
  | root => exact .inl rfl
  | step arrives found ih =>
      obtain resolved | strays := ih
      · exact .inl (resolve_concat.2 ⟨_, resolved, found⟩)
      · exact .inr (strays.append _)
  | @part path k held m name arrives holds named found ih =>
      obtain resolved | strays := ih
      · obtain step | ⟨entries, content, first⟩ := step?_of_field? ordered found
        · have enters : (d.node k).step? (.ext Directive.map.name) = some held := holds
          have entered := resolve_concat.2 ⟨k, resolved, enters⟩
          exact .inl (resolve_concat.2 ⟨held, entered, step⟩)
        · exact .inr ⟨path, name, [], k, held, entries, m,
            by simp, named, resolved, holds, content, first⟩
      · rw [List.append_assoc]
        exact .inr (strays.append _)

/-- Whether the elements of a tuple lie at the steps from `index` on. -/
def HasElements (d : Document) (path : Path) : UInt8 → List Value → Prop
  | _, [] => True
  | index, v :: vs => d.HasAt (path ++ [.tuple index]) v ∧ d.HasElements path (index + 1) vs

theorem HasElements.of_getElem (start : Nat) (vs : List Value)
    (each : ∀ i (inside : i < vs.length), d.HasAt (path ++ [.tuple (start + i).toUInt8]) vs[i]) :
    d.HasElements path start.toUInt8 vs := by
  induction vs generalizing start with
  | nil => trivial
  | cons v vs ih =>
      refine ⟨each 0 (Nat.zero_lt_succ _), ?_⟩
      have next : start.toUInt8 + 1 = (start + 1).toUInt8 := (UInt8.ofNat_add start 1).symm
      rw [next]
      refine ih (start + 1) fun i inside => ?_
      have shifted := each (i + 1) (Nat.succ_lt_succ inside)
      rwa [← Nat.add_assoc, Nat.add_right_comm] at shifted

namespace HasAt

theorem isPlace (has : d.HasAt path v) : d.IsPlace path :=
  has.imp fun _ at_ => at_.1

variable (ordered : d.IsOrdered) (has : d.HasAt path v)
include ordered has

theorem extension {name : Bytes} (found : v.extension? name = some held) :
    d.HasAt (path ++ [.ext name]) held := by
  obtain ⟨m, arrives, rfl⟩ := has
  rw [ordered.extension?_valueAt] at found
  obtain ⟨k, look, rfl⟩ := Option.map_eq_some_iff.1 found
  exact ⟨k, .step arrives look, rfl⟩

theorem mem_extensions {e : Bytes × Value} (member : e ∈ v.extensions) :
    d.HasAt (path ++ [.ext e.1]) e.2 := by
  obtain ⟨m, arrives, rfl⟩ := has
  rw [ordered.extensions_valueAt] at member
  obtain ⟨⟨name, k⟩, listed, rfl⟩ := List.mem_map.1 member
  exact ⟨k, .step arrives (lookup?_of_mem (ordered.orderly m).names listed), rfl⟩

theorem entry {es : List (Key × Value)} (content : v.content = .map es) :
    ∀ e ∈ es, d.HasAt (path ++ [e.1.segment]) e.2 := by
  obtain ⟨m, arrives, rfl⟩ := has
  rw [ordered.content_valueAt] at content
  cases node : (d.node m).content with
  | map items =>
      rw [node] at content
      cases content
      refine List.forall_mem_map.2 fun item member => ⟨item.2, .step arrives ?_, rfl⟩
      rw [Node.step?_segment _ ((ordered.orderly m).plain items node _ member), node]
      exact lookup?_of_mem ((ordered.orderly m).keys items node) member
  | _ =>
      rw [node] at content
      cases content

theorem elements {vs : List Value} (content : v.content = .tuple vs) : d.HasElements path 0 vs := by
  obtain ⟨m, arrives, rfl⟩ := has
  rw [ordered.content_valueAt] at content
  cases node : (d.node m).content with
  | tuple items =>
      rw [node] at content
      cases content
      refine .of_getElem 0 _ fun i inside => ?_
      rw [List.length_map] at inside
      have few := (ordered.orderly m).elements items node
      have index : (0 + i).toUInt8.toNat = i :=
        UInt8.toNat_ofNat_of_lt (show 0 + i < 256 by omega) |>.trans (Nat.zero_add i)
      refine ⟨items[i], .step arrives ?_, by rw [List.getElem_map]⟩
      rw [Node.step?, node, Content.tuple?, Option.bind_some, index]
      exact List.getElem?_eq_getElem inside
  | _ =>
      rw [node] at content
      cases content

/-- The key and the value of a map type. -/
theorem part {name : Bytes} {part : Value} (found : v.directive? .map = some held)
    (named : name = utf8 "key" ∨ name = utf8 "value")
    (look : held.content.field? name = some part) :
    d.HasAt (path ++ [.ext Directive.map.name] ++ [.ident name]) part := by
  obtain ⟨m, arrives, rfl⟩ := has
  rw [Value.directive?, ordered.extension?_valueAt] at found
  obtain ⟨k, holds, rfl⟩ := Option.map_eq_some_iff.1 found
  rw [ordered.content_valueAt, Content.field?_mapParts] at look
  obtain ⟨child, stored, rfl⟩ := Option.map_eq_some_iff.1 look
  exact ⟨child, .part arrives holds named stored, rfl⟩

end HasAt

end Document

/-- Whether a result, if there is one, is of a kind, and a defect, if there is one, has a path of a
kind. -/
def Blames (place : Path → Prop) (post : α → Prop) (x : Extract α) : Prop :=
  Gives post x ∧ ∀ e, x = .error e → place e.path

namespace Blames

variable {place : Path → Prop} {post wider : α → Prop} {next : β → Prop} {x y : Extract α}

theorem ok {a : α} (holds : post a) : Blames place post (.ok a) :=
  ⟨.ok holds, nofun⟩

theorem refuse {defect : Defect} (located : place path) :
    Blames place post (refuse defect path) := by
  refine ⟨.error, fun e same => ?_⟩
  cases same
  exact located

theorem bind {f : α → Extract β} (first : Blames place post x)
    (further : ∀ a, post a → Blames place next (f a)) : Blames place next (x >>= f) := by
  cases x with
  | error e =>
      refine ⟨.error, fun e' same => ?_⟩
      cases same
      exact first.2 e rfl
  | ok a => exact further a (first.1 a rfl)

theorem ite {p : Prop} [Decidable p] (yes : p → Blames place post x)
    (no : ¬ p → Blames place post y) :
    Blames place post (if p then x else y) := by
  by_cases h : p
  · rw [if_pos h]
    exact yes h
  · rw [if_neg h]
    exact no h

/-- Where nothing has to be known of the result. -/
theorem bind_any {f : α → Extract β} (first : Blames place (fun _ => True) x)
    (further : ∀ a, Blames place next (f a)) : Blames place next (x >>= f) :=
  first.bind fun a _ => further a

/-- What else is known of the result. -/
theorem and (blames : Blames place post x) (gives : Gives wider x) :
    Blames place (fun a => post a ∧ wider a) x :=
  ⟨fun a same => ⟨blames.1 a same, gives a same⟩, blames.2⟩

end Blames

/-- Whether a declaration and all below it come from paths of a kind. -/
inductive Declaration.ComesFrom (place : Path → Prop) : Declaration → Prop
  | node {origin : Path} {shape : Shape Declaration} {metadata : Metadata} (here : place origin)
      (below : ∀ d ∈ shape.children, ComesFrom place d) :
      ComesFrom place (.node origin shape metadata)

namespace Declaration.ComesFrom

variable {place : Path → Prop}

theorem of_leaf {shape : Shape Declaration} {metadata : Metadata} (here : place path)
    (leaf : shape.children = []) : ComesFrom place (.node path shape metadata) :=
  .node here (by simp [leaf])

theorem within {whole part : Declaration} (comes : whole.ComesFrom place)
    (within : part.Within whole) :
    place part.origin := by
  induction within with
  | refl =>
      cases comes with
      | node here below => exact here
  | step inside within ih =>
      cases comes with
      | node here below => exact ih (below _ inside)

end Declaration.ComesFrom

theorem Constraint.applyAll_blames {s : Shape α} (ordered : d.IsOrdered) (has : d.HasAt path v)
    {extensions : List (Bytes × Value)} (inside : extensions ⊆ v.extensions) :
    Blames d.IsPlace (fun _ => True) (applyAll path s extensions) := by
  induction extensions generalizing s with
  | nil => exact .ok trivial
  | cons e rest ih =>
      obtain ⟨here, others⟩ := List.cons_subset.1 inside
      rw [applyAll]
      split
      · exact ih others
      · exact .refuse (has.mem_extensions ordered here).isPlace

theorem Metadata.noteAll_blames (placement : Placement) {m : Metadata} (ordered : d.IsOrdered)
    (has : d.HasAt path v) {extensions : List (Bytes × Value)}
    (inside : extensions ⊆ v.extensions) :
    Blames d.IsPlace (fun _ => True) (noteAll placement path m extensions) := by
  induction extensions generalizing m with
  | nil => exact .ok trivial
  | cons e rest ih =>
      obtain ⟨here, others⟩ := List.cons_subset.1 inside
      rw [noteAll]
      split
      · exact ih others
      · exact .refuse (has.mem_extensions ordered here).isPlace

namespace Naming

/-- One naming option: what is read under an extension, if it is there. -/
def option (v : Value) (path : Path) (name : Bytes) (requirement : Requirement)
    (read : Value → Option α) :
    Extract (Option α) :=
  match v.extension? name with
  | none => .ok none
  | some held =>
    match read held with
    | some a => .ok (some a)
    | none => DocSchema.refuse (.malformed name requirement) (path ++ [.ext name])

theorem ofValue_eq (v : Value) (path : Path) : ofValue v path = (do
    let rename ← option v path "rename" .text (·.textContent?)
    let renameAll ← option v path "rename-all" .renameRule (·.textContent?.bind RenameRule.ofName?)
    return { rename, renameAll }) := by
  unfold ofValue option
  cases v.extension? "rename" with
  | none =>
      cases v.extension? "rename-all" with
      | none => rfl
      | some r =>
          dsimp only
          cases r.textContent?.bind RenameRule.ofName? <;> rfl
  | some r =>
      dsimp only
      cases r.textContent? with
      | none => rfl
      | some s =>
          cases v.extension? "rename-all" with
          | none => rfl
          | some r =>
              dsimp only
              cases r.textContent?.bind RenameRule.ofName? <;> rfl

theorem option_blames (ordered : d.IsOrdered) (has : d.HasAt path v) (name : Bytes)
    (requirement : Requirement)
    (read : Value → Option α) :
    Blames d.IsPlace (fun _ => True) (option v path name requirement read) := by
  unfold option
  split
  · exact .ok trivial
  · next held found =>
    split
    · exact .ok trivial
    · exact .refuse (has.extension ordered found).isPlace

theorem ofValue_blames (ordered : d.IsOrdered) (has : d.HasAt path v) :
    Blames d.IsPlace (fun _ => True) (ofValue v path) := by
  rw [ofValue_eq]
  exact (option_blames ordered has _ _ _).bind_any fun _ => (option_blames ordered has _ _ _).bind_any fun _ =>
    .ok trivial

end Naming

namespace Declaration

theorem children_ofExpression (e : TypeExpression) : (ofExpression e).children = [] := by
  cases e <;> rfl

mutual

theorem ofTypeDirective_blames (ordered : d.IsOrdered) (path : Path) (v : Value)
    (has : d.HasAt path v) :
    Blames d.IsPlace (ComesFrom d.IsPlace) (ofTypeDirective path v) := by
  unfold ofTypeDirective
  split
  · next vs extensions =>
    have elements : d.HasElements path 0 vs := has.elements ordered rfl
    exact (ofTypeDirectives_blames ordered path 0 vs elements).bind
      fun ds below => .ok (.node has.isPlace below)
  · split
    · exact .refuse has.isPlace
    · split
      · next e read => exact .ok (.of_leaf has.isPlace (children_ofExpression e))
      · exact .refuse has.isPlace

theorem ofTypeDirectives_blames (ordered : d.IsOrdered) (path : Path) (index : UInt8)
    (vs : List Value) (elements : d.HasElements path index vs) :
    Blames d.IsPlace (fun ds => ∀ t ∈ ds,
      t.ComesFrom d.IsPlace) (ofTypeDirectives path index vs) := by
  cases vs with
  | nil => exact .ok (List.forall_mem_nil _)
  | cons v vs =>
      exact (ofTypeDirective_blames ordered _ v elements.1).bind fun t first =>
        (ofTypeDirectives_blames ordered path (index + 1) vs elements.2).bind fun ds rest =>
          .ok (List.forall_mem_cons.2 ⟨first, rest⟩)

end

theorem representationParts_blames (tag content : Option Bytes) {es : List (Key × Value)}
    (entries : ∀ e ∈ es, d.HasAt (path ++ [e.1.segment]) e.2) :
    Blames d.IsPlace (fun _ => True) (representationParts path tag content es) := by
  induction es generalizing tag content with
  | nil => exact .ok trivial
  | cons e es ih =>
      obtain ⟨here, others⟩ := List.forall_mem_cons.1 entries
      rw [representationParts]
      refine .ite (fun _ => ih _ _ others) fun _ => .ite (fun _ => ?_) fun _ => .refuse here.isPlace
      split
      · exact ih _ _ others
      · exact .refuse here.isPlace

section Options

variable (ordered : d.IsOrdered)
include ordered

theorem optionalFlag_blames (has : d.HasAt path v) :
    Blames d.IsPlace (fun _ => True) (optionalFlag v path) := by
  unfold optionalFlag
  split
  · exact .ok trivial
  · next flag found =>
    split
    · exact .ok trivial
    · exact .refuse (has.extension ordered found).isPlace

theorem unknownFieldsPolicy_blames (has : d.HasAt path v) :
    Blames d.IsPlace (fun _ => True) (unknownFieldsPolicy v path) := by
  unfold unknownFieldsPolicy
  split
  · exact .ok trivial
  · next policy found =>
    exact .ite (fun _ => .ok trivial) fun _ => .ite (fun _ => .ok trivial) fun _ =>
      .refuse (has.extension ordered found).isPlace

theorem representation_blames (has : d.HasAt path v) :
    Blames d.IsPlace (fun _ => True) (representation v path) := by
  unfold representation
  split
  · exact .ite (fun _ => .ok trivial)
      fun _ => .ite (fun _ => .ok trivial) fun _ => .refuse has.isPlace
  · next es _ content =>
    refine (representationParts_blames none none (has.entry ordered content)).bind fun parts _ => ?_
    split
    · exact .refuse has.isPlace
    · exact .ok trivial
    · exact .ite (fun _ => .refuse has.isPlace) fun _ => .ok trivial
  · exact .refuse has.isPlace

end Options

/-- Whether a reader blames only places of the document, and gives only what comes from there. -/
def Reader.Blames (d : Document) (read : Reader) : Prop :=
  ∀ v path placement, d.HasAt path v →
    DocSchema.Blames d.IsPlace (ComesFrom d.IsPlace) (read v path placement)

section Parts

variable {read : Reader} (ordered : d.IsOrdered) (blames : read.Blames d)
include blames

theorem tupleElements_blames {index : UInt8} {vs : List Value}
    (elements : d.HasElements path index vs) :
    DocSchema.Blames d.IsPlace
      (fun ds => ∀ t ∈ ds, t.ComesFrom d.IsPlace) (tupleElements read path index vs) := by
  induction vs generalizing index with
  | nil => exact .ok (List.forall_mem_nil _)
  | cons v vs ih =>
      obtain ⟨here, others⟩ := elements
      have whole (t : Declaration) (comes : t.ComesFrom d.IsPlace) :
          DocSchema.Blames d.IsPlace (fun ds => ∀ t ∈ ds, t.ComesFrom d.IsPlace)
            (do return t :: (← tupleElements read path (index + 1) vs)) :=
        (ih others).bind fun ds rest => .ok (List.forall_mem_cons.2 ⟨comes, rest⟩)
      unfold tupleElements
      dsimp only
      split
      · exact (blames v _ .nested here).bind whole
      · exact whole _ (.of_leaf here.isPlace rfl)

theorem unionVariants_blames {seen : List Bytes} {es : List (Key × Value)}
    (entries : ∀ e ∈ es, d.HasAt (path ++ [e.1.segment]) e.2) :
    DocSchema.Blames d.IsPlace (fun variants => ∀ v ∈ variants, v.schema.ComesFrom d.IsPlace)
      (unionVariants read path seen es) := by
  induction es generalizing seen with
  | nil => exact .ok (List.forall_mem_nil _)
  | cons e es ih =>
      obtain ⟨here, others⟩ := List.forall_mem_cons.1 entries
      obtain ⟨key, v⟩ := e
      rw [unionVariants]
      split
      · exact .refuse here.isPlace
      · next name spelled =>
        refine .ite (fun _ => .refuse here.isPlace) fun _ => ?_
        have whole (t : Declaration) (comes : t.ComesFrom d.IsPlace) :
            DocSchema.Blames d.IsPlace
              (fun variants => ∀ v ∈ variants, v.schema.ComesFrom d.IsPlace)
              (do return { name, schema := t } :: (← unionVariants read path (name :: seen) es)) :=
          (ih others).bind fun variants rest => .ok (List.forall_mem_cons.2 ⟨comes, rest⟩)
        dsimp only
        split
        · exact whole _ (.of_leaf here.isPlace rfl)
        · exact (blames v _ .variant here).bind fun t comes =>
            .ite (fun _ => .refuse here.isPlace) fun _ => whole t comes

include ordered

theorem recordFields_blames {seen : List Bytes} {es : List (Key × Value)}
    (entries : ∀ e ∈ es, d.HasAt (path ++ [e.1.segment]) e.2) :
    DocSchema.Blames d.IsPlace (fun fields => ∀ f ∈ fields, f.schema.ComesFrom d.IsPlace)
      (recordFields read path seen es) := by
  induction es generalizing seen with
  | nil => exact .ok (List.forall_mem_nil _)
  | cons e es ih =>
      obtain ⟨here, others⟩ := List.forall_mem_cons.1 entries
      obtain ⟨key, v⟩ := e
      rw [recordFields]
      split
      · exact ih others
      · refine .ite (fun _ => .refuse here.isPlace) fun _ => .ite (fun _ => ?_) fun _ => ih others
        exact (blames v _ .nested here).bind fun t comes => (optionalFlag_blames ordered here).bind_any fun _ =>
          (ih others).bind fun fields rest => .ok (List.forall_mem_cons.2 ⟨comes, rest⟩)

theorem union_blames (has : d.HasAt path v) (found : v.directive? .variants = some held) :
    DocSchema.Blames d.IsPlace (fun shape => ∀ t ∈ shape.children, t.ComesFrom d.IsPlace)
      (union read v held path) := by
  have there := has.extension ordered found
  unfold union
  dsimp only
  split
  · next es content =>
    refine (unionVariants_blames blames (there.entry ordered content)).bind fun members below => ?_
    refine .ite (fun _ => .refuse there.isPlace) fun _ => ?_
    have below : ∀ t ∈ members.map (·.schema), t.ComesFrom d.IsPlace := List.forall_mem_map.2 below
    split
    · exact .ok below
    · next r given =>
        exact (representation_blames ordered (has.extension ordered given)).bind_any
          fun _ => .ok below
  · exact .refuse there.isPlace

theorem map_blames (has : d.HasAt path v) (found : v.directive? .map = some held) :
    DocSchema.Blames d.IsPlace (fun shape => ∀ t ∈ shape.children, t.ComesFrom d.IsPlace)
      (map read held (path ++ [.ext Directive.map.name])) := by
  unfold map
  split
  · next key value keyed valued =>
    refine (blames key _ .nested (has.part ordered found (.inl rfl) keyed)).bind fun s first => ?_
    refine (blames value _ .nested (has.part ordered found (.inr rfl) valued)).bind
      fun t second => .ok ?_
    simp [Shape.children, first, second]
  · exact .refuse (has.extension ordered found).isPlace

theorem unannotated_blames (placement : Placement) (has : d.HasAt path v) :
    DocSchema.Blames d.IsPlace (fun shape => ∀ t ∈ shape.children, t.ComesFrom d.IsPlace)
      (unannotated read v path placement) := by
  have leaf {shape : Shape Declaration} (leaf : shape.children = []) :
      DocSchema.Blames d.IsPlace (fun shape => ∀ t ∈ shape.children, t.ComesFrom d.IsPlace)
        (.ok shape) :=
    .ok (by simp [leaf])
  unfold unannotated
  split
  · next e read => exact leaf (children_ofExpression e)
  · split
    · next vs content =>
      refine .ite (fun _ => ?_) fun _ => leaf rfl
      exact (tupleElements_blames blames (has.elements ordered content)).bind
        fun ds below => .ok below
    · next es content =>
      refine .ite (fun _ => ?_) fun _ => leaf rfl
      exact (recordFields_blames ordered blames (has.entry ordered content)).bind fun fields below =>
        (unknownFieldsPolicy_blames ordered has).bind_any fun _ => .ok (List.forall_mem_map.2 below)
    · exact leaf rfl

theorem annotated_blames {a : Directive} (has : d.HasAt path v) (member : a ∈ Directive.base)
    (found : v.directive? a = some held) :
    DocSchema.Blames d.IsPlace (fun typed => d.IsPlace typed.1 ∧
      ∀ t ∈ typed.2.children, t.ComesFrom d.IsPlace)
      (annotated read v a held path) := by
  have there := has.extension ordered found
  cases a
  case type =>
    refine (ofTypeDirective_blames ordered _ held there).bind fun t comes => .ok ?_
    cases comes with
    | node here below => exact ⟨here, below⟩
  case array =>
    refine (blames held _ .nested there).bind fun t comes => .ok ⟨has.isPlace, ?_⟩
    simpa [Shape.children] using comes
  case map =>
    exact (map_blames ordered blames has found).bind fun shape below => .ok ⟨has.isPlace, below⟩
  case literal => exact .ok ⟨has.isPlace, List.forall_mem_nil _⟩
  case variants =>
    exact (union_blames ordered blames has found).bind fun shape below => .ok ⟨has.isPlace, below⟩
  all_goals exact absurd member (by decide)

theorem base_blames (placement : Placement) (has : d.HasAt path v) :
    DocSchema.Blames d.IsPlace (fun typed => d.IsPlace typed.1 ∧
      ∀ t ∈ typed.2.children, t.ComesFrom d.IsPlace)
      (base read v path placement) := by
  unfold base
  split
  · exact (unannotated_blames ordered blames placement has).bind
      fun shape below => .ok ⟨has.isPlace, below⟩
  · next a held only =>
    have listed : (a, held) ∈ Directive.base.filterMap fun a =>
        (v.directive? a).map fun held => (a, held) := by
      rw [only]
      exact List.mem_singleton_self _
    obtain ⟨b, member, given⟩ := List.mem_filterMap.1 listed
    obtain ⟨w, found, same⟩ := Option.map_eq_some_iff.1 given
    cases same
    split
    · exact annotated_blames ordered blames has member found
    · exact .refuse has.isPlace
  · exact .refuse has.isPlace

end Parts

/-- A reader of more levels blames only places if one of fewer levels does. -/
theorem readTo_blames (ordered : d.IsOrdered) (depth : Nat) : (readTo depth).Blames d := by
  induction depth with
  | zero => exact fun v path placement has => .ok (.of_leaf has.isPlace rfl)
  | succ depth ih =>
      intro v path placement has
      refine ((base_blames ordered ih placement has).and (base_sound (readTo_sound depth) v path placement)).bind ?_
      rintro ⟨origin, shape⟩ ⟨⟨here, below⟩, sound, -⟩
      have keeps := Constraint.applyAll_gives path v.extensions sound
      refine ((Constraint.applyAll_blames ordered has (List.Subset.refl _)).and keeps).bind
        fun narrowed keeps => ?_
      refine (Metadata.noteAll_blames placement ordered has (List.Subset.refl _)).bind_any
        fun metadata => .ok ?_
      refine .node here ?_
      rw [keeps.2.2]
      exact below

theorem ofValue_blames (ordered : d.IsOrdered) : Reader.Blames d ofValue :=
  fun v path placement => readTo_blames ordered v.size v path placement

end Declaration

namespace Declarations

theorem namedTypes_blames (ordered : d.IsOrdered) {seen : List Bytes} {es : List (Key × Value)}
    (entries : ∀ e ∈ es, d.HasAt (path ++ [e.1.segment]) e.2) :
    Blames d.IsPlace (fun types => ∀ t ∈ types,
      t.declaration.ComesFrom d.IsPlace) (namedTypes path seen es) := by
  induction es generalizing seen with
  | nil => exact .ok (List.forall_mem_nil _)
  | cons e es ih =>
      obtain ⟨here, others⟩ := List.forall_mem_cons.1 entries
      obtain ⟨key, v⟩ := e
      rw [namedTypes]
      split
      · exact .refuse here.isPlace
      · refine (Declaration.ofValue_blames ordered v _ .typeEntry here).bind fun t comes => ?_
        refine .ite (fun _ => .refuse here.isPlace) fun _ => ?_
        exact (Naming.ofValue_blames ordered here).bind_any fun naming =>
          (ih others).bind fun types rest => .ok (List.forall_mem_cons.2 ⟨comes, rest⟩)

theorem typesOf_blames (ordered : d.IsOrdered) (has : d.HasAt [] v) :
    Blames d.IsPlace (fun types => ∀ t ∈ types, t.declaration.ComesFrom d.IsPlace) (typesOf v) := by
  unfold typesOf
  dsimp only
  split
  · exact .ok (List.forall_mem_nil _)
  · next types found =>
    have there := has.extension ordered found
    split
    · next es content => exact namedTypes_blames ordered (there.entry ordered content)
    · exact .refuse there.isPlace

theorem ofValue_blames (ordered : d.IsOrdered) (has : d.HasAt [] v) :
    Blames d.IsPlace (fun declared => ∀ t ∈ declared.all, t.ComesFrom d.IsPlace) (ofValue v) := by
  refine (typesOf_blames ordered has).bind fun types named => ?_
  refine (Naming.ofValue_blames ordered has).bind_any fun naming => ?_
  refine (Declaration.ofValue_blames ordered v [] .root has).bind fun root comes => .ok ?_
  exact List.forall_mem_append.2 ⟨List.forall_mem_map.2 named, List.forall_mem_singleton.2 comes⟩

/-- A reference that is undefined is that of a type of the table. -/
theorem undefined?_origin {placed : Array PlacedType} {s : Schema} {name : Bytes}
    (found : undefined? placed s = some (name, path)) : ∃ t ∈ placed.toList, t.origin = path := by
  obtain ⟨t, member, undefined⟩ := List.exists_of_findSome?_eq_some found
  refine ⟨t, member, ?_⟩
  split at undefined
  · split at undefined <;> cases undefined
    rfl
  · cases undefined

end Declarations

theorem extractValue_blames (ordered : d.IsOrdered) :
    Blames d.IsPlace (fun _ => True) (extractValue d.value) := by
  have has : d.HasAt [] d.value := ⟨_, .root, rfl⟩
  refine (Declarations.ofValue_blames ordered has).bind fun declared comes => ?_
  dsimp only
  split
  · next name path undefined =>
    obtain ⟨t, member, rfl⟩ := Declarations.undefined?_origin undefined
    obtain ⟨whole, listed, part, within, origin⟩ := declared.mem_table t member
    refine .refuse ?_
    rw [origin]
    exact (comes whole listed).within within
  · exact .ok trivial

/-- A document that declares no schema has a defect in it: its path leads to a node of the document,
and resolves to that node as it is written, unless it comes by a map type the key or the value of
which is stored under a text. -/
theorem extract_located {d : Document} (built : d.IsBuilt) {e : ExtractionError}
    (failed : extract d = .error e) :
    ∃ m, d.Arrives e.path m ∧ (d.resolve e.path Document.root = .ok m ∨ d.StraysInMap e.path) := by
  obtain ⟨m, arrives⟩ := (extractValue_blames built.isOrdered).2 e failed
  exact ⟨m, arrives, arrives.resolves built.isOrdered⟩

/-- A map type with its key under a text, where a name is no type expression. -/
private def misnamed : Document :=
  ⟨#[⟨.hole, [("map", 1)]⟩, ⟨.map [(.literal (.text "key"), 2), (.ident "value", 4)], []⟩,
    ⟨.hole, [("type", 3)]⟩,
    ⟨.primitive (.text ⟨"nothing", .implicit⟩), []⟩,
    ⟨.primitive (.text ⟨"integer", .implicit⟩), []⟩]⟩

private theorem misnamed_isBuilt : misnamed.IsBuilt :=
  .of_run [.insert 0 (.ext "map"), .insert 1 (.literal (.text "key")), .insert 2 (.ext "type"),
    .assign 3 (.text ⟨"nothing", .implicit⟩), .insert 1 (.ident "value"),
    .assign 4 (.text ⟨"integer", .implicit⟩)]
    rfl rfl

/-- The path of the defect has the step of a name for that of the text, and does not resolve. -/
theorem extract_located_misnamed :
    let path : Path := [.ext "map", .ident "key", .ext "type"]
    misnamed.IsBuilt ∧ extract misnamed = .error ⟨.notTypeExpression "nothing", path⟩ ∧
      (∃ m, misnamed.Arrives path m ∧
        (misnamed.resolve path Document.root = .ok m ∨ misnamed.StraysInMap path)) ∧
      misnamed.resolve path Document.root = .error ⟨.pathNotFound, [.ext "map", .ident "key"]⟩ := by
  intro path
  have failed : extract misnamed = .error ⟨.notTypeExpression "nothing", path⟩ := rfl
  exact ⟨misnamed_isBuilt, failed, extract_located misnamed_isBuilt failed, rfl⟩

end DocSchema
