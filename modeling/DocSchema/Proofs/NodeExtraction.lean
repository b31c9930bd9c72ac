import DocSchema.Proofs.Glances

set_option autoImplicit false

namespace DocSchema

variable {α β : Type} {d : Document}

/-- The same answer about each item is the same answer about all. -/
theorem any_eq {items : List α} {f g : α → Bool} (same : ∀ a ∈ items, f a = g a) :
    items.any f = items.any g := by
  rw [Bool.eq_iff_iff, List.any_eq_true, List.any_eq_true]
  exact exists_congr fun a => and_congr_right fun inside => by rw [same a inside]

/-- Whether all known answers are those of the values. -/
def Memo.IsSound (d : Document) (memo : Memo) : Prop :=
  ∀ id answer, memo[id]? = some (some answer) → (d.valueAt id).isDeclared = answer

namespace Memo.IsSound

theorem replicate (n : Nat) : IsSound d (Array.replicate n none) := by
  intro id answer known
  rw [Array.getElem?_replicate] at known
  split at known <;> cases known

theorem set {memo : Memo} (sound : memo.IsSound d) (id : NodeId) :
    IsSound d (memo.setIfInBounds id (some (d.valueAt id).isDeclared)) := by
  intro other answer known
  rw [Array.getElem?_setIfInBounds] at known
  split at known
  next same =>
    subst same
    split at known
    · exact Option.some.inj (Option.some.inj known)
    · cases known
  next => exact sound other answer known

end Memo.IsSound

namespace Value

theorem isDeclaredEntries_eq (es : List (Key × Value)) :
    isDeclaredEntries es = es.any fun e => e.2.isDeclared := by
  induction es with
  | nil => rfl
  | cons e es ih => rw [isDeclaredEntries, ih, List.any_cons]

theorem isDeclaredList_eq (vs : List Value) : isDeclaredList vs = vs.any isDeclared := by
  induction vs with
  | nil => rfl
  | cons v vs ih => rw [isDeclaredList, ih, List.any_cons]

theorem holdsDataEntries_eq (es : List (Key × Value)) :
    holdsDataEntries es = es.any fun e => e.2.holdsData := by
  induction es with
  | nil => rfl
  | cons e es ih => rw [holdsDataEntries, ih, List.any_cons]

theorem holdsDataList_any (vs : List Value) : holdsDataList vs = vs.any holdsData := by
  induction vs with
  | nil => rfl
  | cons v vs ih => rw [holdsDataList, ih, List.any_cons]

end Value

/-- Whether a node comes after another one and has the smaller value, as the nodes below it do. -/
structure Document.IsBelow (d : Document) (id below : Nat) : Prop where
  after : id < below
  inside : below < d.size
  smaller : (d.valueAt below).size < (d.valueAt id).size

theorem Document.IsBelow.trans {id first second : Nat} (above : d.IsBelow id first)
    (below : d.IsBelow first second) : d.IsBelow id second :=
  ⟨Nat.lt_trans above.after below.after, below.inside, Nat.lt_trans below.smaller above.smaller⟩

namespace Document.IsOrdered

variable (ordered : d.IsOrdered) {id child : Nat}

include ordered

theorem valueAt_outside (out : d.size - id ≤ 0) : d.valueAt id = .of .hole :=
  ordered.valueTo_enough (by omega) out

theorem isBelow (part : child ∈ (d.node id).parts) : d.IsBelow id child := by
  obtain ⟨after, inside⟩ := ordered.later id child part
  refine ⟨after, inside, Value.size_lt_of_mem_parts ?_⟩
  rw [ordered.root_valueAt, Node.parts_mapParts]
  exact List.mem_map_of_mem part

theorem isBelow_entry {es : List (Key × NodeId)} (content : (d.node id).content = .map es)
    {e : Key × NodeId} (inside : e ∈ es) : d.IsBelow id e.2 := by
  apply ordered.isBelow
  rw [Node.parts, content]
  exact List.mem_append_left _ (List.mem_map_of_mem inside)

theorem isBelow_element {ids : List NodeId}
    (content : (d.node id).content = .tuple ids ∨ (d.node id).content = .array ids)
    (inside : child ∈ ids) : d.IsBelow id child := by
  apply ordered.isBelow
  obtain content | content := content <;> rw [Node.parts, content] <;>
    exact List.mem_append_left _ inside

theorem isBelow_field {name : Bytes} (found : (d.node id).content.field? name = some child) :
    d.IsBelow id child := by
  obtain ⟨entries, map, look⟩ := Option.bind_eq_some_iff.1 found
  obtain ⟨e, first, rfl⟩ := Option.map_eq_some_iff.1 look
  have content : (d.node id).content = .map entries := by
    cases content : (d.node id).content <;> rw [content] at map <;> cases map
    rfl
  exact ordered.isBelow_entry content (List.mem_of_find?_eq_some first)

theorem isBelow_extension {name : Bytes} (found : (d.node id).extension? name = some child) :
    d.IsBelow id child :=
  ordered.isBelow (List.mem_append_right _ (List.mem_map_of_mem (mem_of_lookup? found)))

theorem isDeclared_valueAt : (d.valueAt id).isDeclared =
    (((d.node id).extensions.any (fun x => Directive.declares x.1) ||
      (d.node id).content.typeExpression?.isSome) ||
      Value.isDeclaredContent ((d.node id).content.mapParts d.valueAt)) := by
  have content := ordered.content_valueAt id
  have extensions := ordered.extensions_valueAt id
  cases value : d.valueAt id with
  | node c x =>
      rw [value, Value.content] at content
      rw [value, Value.extensions] at extensions
      rw [Value.isDeclared, content, extensions, Content.typeExpression?_mapParts, List.any_map]
      rfl

end Document.IsOrdered

namespace Extractor

/-- Whether a part of an extraction has the result `r` whichever true answers are known, and keeps
only true ones. -/
def Computes (d : Document) (x : Extractor α) (r : Extract α) : Prop :=
  ∀ memo : Memo, memo.IsSound d →
    ∃ later : Memo, later.IsSound d ∧ StateT.run x memo = r.map (·, later)

namespace Computes

variable {x : Extractor α} {f : α → Extractor β} {r : Extract α} {g : α → Extract β} {a : α}

theorem pure (a : α) : Computes d (pure a) (.ok a) :=
  fun memo sound => ⟨memo, sound, rfl⟩

theorem lift (r : Extract α) : Computes d (liftM r) r := by
  intro memo sound
  refine ⟨memo, sound, ?_⟩
  cases r <;> rfl

theorem bind (first : Computes d x r) (rest : ∀ a, r = .ok a → Computes d (f a) (g a)) :
    Computes d (x >>= f) (r >>= g) := by
  intro memo sound
  obtain ⟨between, sound', ran⟩ := first memo sound
  rw [StateT.run_bind, ran]
  cases r with
  | error e => exact ⟨memo, sound, rfl⟩
  | ok a => exact rest a rfl between sound'

/-- What follows a part whose result is known. -/
theorem bind_ok {s : Extract β} (first : Computes d x (.ok a)) (rest : Computes d (f a) s) :
    Computes d (x >>= f) s :=
  first.bind (g := fun _ => s) fun _ same => by
    obtain rfl := Except.ok.inj same
    exact rest

theorem lift_bind (rest : ∀ a, r = .ok a → Computes d (f a) (g a)) :
    Computes d ((liftM r : Extractor α) >>= f) (r >>= g) :=
  (lift r).bind rest

theorem anyM {items : List α} {f : α → Extractor Bool} {g : α → Bool}
    (each : ∀ a ∈ items, Computes d (f a) (.ok (g a))) :
    Computes d (items.anyM f) (.ok (items.any g)) := by
  induction items with
  | nil => exact pure false
  | cons a items ih =>
      rw [List.any_cons, List.anyM]
      refine (each a List.mem_cons_self).bind_ok ?_
      cases g a with
      | true => exact pure true
      | false => exact ih fun b inside => each b (List.mem_cons_of_mem a inside)

end Computes

/-- A kept answer is the true one, and so is one that is found. -/
theorem remember_computes {id : NodeId} {find : Extractor Bool}
    (found : Computes d find (.ok (d.valueAt id).isDeclared)) :
    Computes d (remember id find) (.ok (d.valueAt id).isDeclared) := by
  intro memo sound
  unfold remember
  rw [StateT.run_bind, StateT.run_get, pure_bind]
  split
  next answer known =>
    refine ⟨memo, sound, ?_⟩
    rw [sound id answer known]
    rfl
  next =>
    obtain ⟨later, sound', ran⟩ := found memo sound
    refine ⟨_, sound'.set id, ?_⟩
    rw [StateT.run_bind, ran]
    rfl

section Nodes

variable (ordered : d.IsOrdered)

include ordered

/-- Whichever nodes were asked before, the answer is that of the value. -/
theorem isDeclaredTo_computes {depth : Nat} {id : NodeId} (enough : d.size - id ≤ depth) :
    Computes d (isDeclaredTo d depth id) (.ok (d.valueAt id).isDeclared) := by
  induction depth generalizing id with
  | zero =>
      rw [ordered.valueAt_outside enough]
      exact .pure false
  | succ depth ih =>
      have below {child : NodeId} (below : d.IsBelow id child) :
          Computes d (isDeclaredTo d depth child) (.ok (d.valueAt child).isDeclared) := by
        have after := below.after
        exact ih (by omega)
      refine remember_computes ?_
      rw [ordered.isDeclared_valueAt]
      dsimp only
      split
      next here =>
        rw [here]
        exact .pure true
      next here =>
        rw [Bool.not_eq_true] at here
        rw [here, Bool.false_or]
        cases content : (d.node id).content with
        | map es =>
            rw [Content.mapParts, Value.isDeclaredContent, Value.isDeclaredEntries_eq, List.any_map]
            exact .anyM fun e inside => below (ordered.isBelow_entry content inside)
        | tuple ids =>
            rw [Content.mapParts, Value.isDeclaredContent, Value.isDeclaredList_eq, List.any_map]
            exact .anyM fun child inside => below (ordered.isBelow_element (.inl content) inside)
        | _ => exact .pure false

theorem isDeclared_computes (id : NodeId) :
    Computes d (isDeclared d id) (.ok (d.valueAt id).isDeclared) :=
  isDeclaredTo_computes ordered (Nat.sub_le _ _)

theorem holdsDataTo_eq {depth : Nat} {id : NodeId} (enough : d.size - id ≤ depth) :
    holdsDataTo d depth id = (d.valueAt id).holdsData := by
  induction depth generalizing id with
  | zero => rw [ordered.valueAt_outside enough]; rfl
  | succ depth ih =>
      have below {child : NodeId} (below : d.IsBelow id child) :
          holdsDataTo d depth child = (d.valueAt child).holdsData := by
        have after := below.after
        exact ih (by omega)
      have value : (d.valueAt id).holdsData =
          Value.holdsDataContent ((d.node id).content.mapParts d.valueAt) := by
        rw [← ordered.content_valueAt]
        cases d.valueAt id
        rfl
      rw [value, holdsDataTo]
      cases content : (d.node id).content with
      | hole => rfl
      | primitive p =>
          exact congrArg Option.isNone
            (Content.typeExpression?_mapParts d.valueAt (.primitive p)).symm
      | map es =>
          rw [Content.mapParts, Value.holdsDataContent, Value.holdsDataEntries_eq, List.any_map]
          exact any_eq fun e inside => below (ordered.isBelow_entry content inside)
      | array ids =>
          rw [Content.mapParts, Value.holdsDataContent, Value.holdsDataList_any, List.any_map,
            List.isEmpty_map]
          exact congrArg (ids.isEmpty || ·)
            (any_eq fun child inside => below (ordered.isBelow_element (.inr content) inside))
      | tuple ids =>
          rw [Content.mapParts, Value.holdsDataContent, Value.holdsDataList_any, List.any_map]
          exact any_eq fun child inside => below (ordered.isBelow_element (.inl content) inside)

theorem typeDirectiveTo_eq {depth : Nat} {id : NodeId} (enough : d.size - id ≤ depth)
    (path : Path) :
    typeDirectiveTo d depth id path = Declaration.ofTypeDirective path (d.valueAt id) := by
  induction depth generalizing id path with
  | zero => rw [ordered.valueAt_outside enough]; rfl
  | succ depth ih =>
      have elements (index : UInt8) {ids : List NodeId}
          (below : ∀ child ∈ ids, d.IsBelow id child) :
          typeDirectives (typeDirectiveTo d depth) path index ids =
            Declaration.ofTypeDirectives path index (ids.map d.valueAt) := by
        induction ids generalizing index with
        | nil => rfl
        | cons child ids further =>
            have after := (below child List.mem_cons_self).after
            rw [typeDirectives, List.map_cons, Declaration.ofTypeDirectives, ih (by omega),
              further _ fun child inside => below child (List.mem_cons_of_mem _ inside)]
      have text : (d.glance id).textContent? = (d.valueAt id).textContent? := by
        rw [ordered.glance_eq, Value.textContent?_cut]
      have content := ordered.content_valueAt id
      rw [typeDirectiveTo, text]
      cases value : d.valueAt id with
      | node c x =>
          rw [value, Value.content] at content
          subst content
          cases content : (d.node id).content with
          | tuple ids =>
              rw [Content.mapParts, Declaration.ofTypeDirective,
                ← elements 0 fun child inside => ordered.isBelow_element (.inl content) inside]
          | _ => rfl

def Agree (d : Document) (read : Reader) (readValue : Declaration.Reader) (id : NodeId) : Prop :=
  ∀ path placement, Computes d (read id path placement) (readValue (d.valueAt id) path placement)

def AgreeBelow (d : Document) (read : Reader) (readValue : Declaration.Reader) (id : NodeId) :
    Prop :=
  ∀ child, d.IsBelow id child → Agree d read readValue child

section Parts

variable {read : Reader} {readValue : Declaration.Reader} (path : Path)

theorem tupleElements_computes (index : UInt8) {ids : List NodeId}
    (agree : ∀ id ∈ ids, Agree d read readValue id) :
    Computes d (tupleElements d read path index ids)
      (Declaration.tupleElements readValue path index (ids.map d.valueAt)) := by
  induction ids generalizing index with
  | nil => exact .pure []
  | cons id ids ih =>
      have rest := ih (index + 1) fun other inside => agree other (List.mem_cons_of_mem _ inside)
      rw [tupleElements, List.map_cons, Declaration.tupleElements]
      refine (isDeclared_computes ordered id).bind_ok ?_
      split
      · exact .bind (agree id List.mem_cons_self _ _)
          fun element _ => .bind rest fun elements _ => .pure _
      · exact .bind (.pure _) fun element _ => .bind rest fun elements _ => .pure _

theorem recordFields_computes (seen : List Bytes) {es : List (Key × NodeId)}
    (agree : ∀ e ∈ es, Agree d read readValue e.2) :
    Computes d (recordFields d read path seen es)
      (Declaration.recordFields readValue path seen (es.map fun e => (e.1, d.valueAt e.2))) := by
  induction es generalizing seen with
  | nil => exact .pure []
  | cons e es ih =>
      obtain ⟨key, id⟩ := e
      have rest (seen : List Bytes) :=
        ih seen fun other inside => agree other (List.mem_cons_of_mem _ inside)
      rw [recordFields, List.map_cons, Declaration.recordFields]
      cases key.spelling? with
      | none => exact (isDeclared_computes ordered id).bind_ok (rest seen)
      | some name =>
          dsimp only
          split
          · exact .lift _
          · refine (isDeclared_computes ordered id).bind_ok ?_
            split
            · refine .bind (agree _ List.mem_cons_self _ _) fun schema _ => ?_
              rw [ordered.glance_eq, Declaration.optionalFlag_cut]
              exact .lift_bind fun isOptional _ => .bind (rest _) fun fields _ => .pure _
            · exact rest _

theorem unionVariants_computes (seen : List Bytes) {es : List (Key × NodeId)}
    (agree : ∀ e ∈ es, Agree d read readValue e.2) :
    Computes d (unionVariants d read path seen es)
      (Declaration.unionVariants readValue path seen (es.map fun e => (e.1, d.valueAt e.2))) := by
  induction es generalizing seen with
  | nil => exact .pure []
  | cons e es ih =>
      obtain ⟨key, id⟩ := e
      have rest (seen : List Bytes) :=
        ih seen fun other inside => agree other (List.mem_cons_of_mem _ inside)
      rw [unionVariants, List.map_cons, Declaration.unionVariants]
      cases key.spelling? with
      | none => exact .lift _
      | some name =>
          dsimp only
          split
          · exact .lift _
          · have whole (schema : Declaration) : Computes d
                (do return { name, schema } :: (← unionVariants d read path (name :: seen) es))
                (do return { name, schema } :: (← Declaration.unionVariants readValue path (name :: seen)
                  (es.map fun e => (e.1, d.valueAt e.2)))) :=
              .bind (rest _) fun variants _ => .pure _
            rw [ordered.content_valueAt]
            split
            next null =>
              rw [null]
              exact whole _
            next other =>
              split
              next null => exact absurd (Content.eq_primitive_of_mapParts null) other
              next =>
                refine .bind (agree _ List.mem_cons_self _ _) fun declaration _ => ?_
                rw [Content.isHole_mapParts]
                split
                · exact .lift_bind nofun
                · exact whole declaration

theorem union_computes {owner variants : NodeId} (agree : AgreeBelow d read readValue variants) :
    Computes d (union d read owner variants path)
      (Declaration.union readValue (d.valueAt owner) (d.valueAt variants) path) := by
  rw [union, Declaration.union, ordered.content_valueAt, Value.directive?,
    ordered.extension?_valueAt]
  cases content : (d.node variants).content with
  | map es =>
      refine .bind (unionVariants_computes ordered _ [] fun e inside =>
        agree _ (ordered.isBelow_entry content inside)) fun members _ => ?_
      dsimp only
      split
      · exact .lift_bind nofun
      · cases (d.node owner).extension? Directive.variantRepr.name with
        | none => exact .pure _
        | some r =>
            dsimp only [Option.map_some]
            rw [ordered.glance_eq, Declaration.representation_cut]
            exact .lift_bind fun representation _ => .pure _
  | _ => exact .lift _

theorem map_computes {declaration : NodeId} (agree : AgreeBelow d read readValue declaration) :
    Computes d (map d read declaration path)
      (Declaration.map readValue (d.valueAt declaration) path) := by
  rw [map, Declaration.map, ordered.content_valueAt, Content.field?_mapParts,
    Content.field?_mapParts]
  cases keyed : (d.node declaration).content.field? "key" with
  | none => exact .lift _
  | some key =>
      cases valued : (d.node declaration).content.field? "value" with
      | none => exact .lift _
      | some value =>
          exact .bind (agree key (ordered.isBelow_field keyed) _ _) fun first _ =>
            .bind (agree value (ordered.isBelow_field valued) _ _) fun second _ => .pure _

theorem unannotated_computes {id : NodeId} (agree : AgreeBelow d read readValue id)
    (placement : Placement) :
    Computes d (unannotated d read id path placement)
      (Declaration.unannotated readValue (d.valueAt id) path placement) := by
  rw [unannotated, Declaration.unannotated, ordered.content_valueAt,
    Content.typeExpression?_mapParts]
  cases (d.node id).content.typeExpression? with
  | some e => exact .pure _
  | none =>
      cases content : (d.node id).content with
      | tuple ids =>
          refine (isDeclared_computes ordered id).bind_ok ?_
          dsimp only [Content.mapParts]
          split
          · exact .bind (tupleElements_computes ordered path 0 fun child inside =>
              agree child (ordered.isBelow_element (.inl content) inside)) fun elements _ => .pure _
          · exact .pure _
      | map es =>
          have record : Computes d
              (do
                let fields ← recordFields d read path [] es
                return Shape.record fields (← Declaration.unknownFieldsPolicy (d.glance id) path))
              (do
                let fields ← Declaration.recordFields readValue path [] (es.map fun e => (e.1, d.valueAt e.2))
                return Shape.record fields (← Declaration.unknownFieldsPolicy (d.valueAt id) path)) := by
            rw [ordered.glance_eq, Declaration.unknownFieldsPolicy_cut]
            exact .bind (recordFields_computes ordered path [] fun e inside =>
              agree e.2 (ordered.isBelow_entry content inside)) fun fields _ =>
                  .lift_bind fun policy _ => .pure _
          dsimp only [Content.mapParts]
          by_cases variant : placement = .variant
          · rw [if_pos variant, if_pos (.inl variant)]
            exact (Computes.pure true).bind_ok record
          · rw [if_neg variant]
            refine (isDeclared_computes ordered id).bind_ok ?_
            simp only [variant, false_or]
            split
            · exact record
            · exact .pure _
      | _ => exact .pure _

theorem annotated_computes {id held : NodeId} (below : d.IsBelow id held)
    (agree : AgreeBelow d read readValue id) (a : Directive) :
    Computes d (annotated d read id a held path)
      (Declaration.annotated readValue (d.valueAt id) a (d.valueAt held) path) := by
  have further : AgreeBelow d read readValue held :=
    fun child further => agree child (below.trans further)
  have union : Computes d (do return (path, ← union d read id held path))
      (do return (path, ← Declaration.union readValue (d.valueAt id) (d.valueAt held) path)) :=
    .bind (union_computes ordered path further) fun shape _ => .pure _
  cases a with
  | type =>
      rw [annotated, typeDirectiveTo_eq ordered (Nat.sub_le _ _)]
      exact .lift_bind fun declaration _ => .pure _
  | array => exact .bind (agree held below _ _) fun item _ => .pure _
  | map => exact .bind (map_computes ordered _ further) fun shape _ => .pure _
  | literal => exact .pure _
  | _ => exact union

theorem baseDirectives_valueAt (id : NodeId) :
    (Directive.base.filterMap fun a => ((d.valueAt id).directive? a).map fun held => (a, held)) =
      (baseDirectives d id).map fun item => (item.1, d.valueAt item.2) := by
  rw [baseDirectives, List.map_filterMap]
  congr 1
  funext a
  rw [Value.directive?, ordered.extension?_valueAt, Option.map_map, Option.map_map]
  rfl

theorem isBelow_baseDirective {id held : NodeId} {a : Directive}
    (found : (a, held) ∈ baseDirectives d id) :
    d.IsBelow id held := by
  obtain ⟨a', -, same⟩ := List.mem_filterMap.1 found
  obtain ⟨held', extension, same⟩ := Option.map_eq_some_iff.1 same
  cases same
  exact ordered.isBelow_extension extension

theorem base_computes {id : NodeId} (agree : AgreeBelow d read readValue id)
    (placement : Placement) :
    Computes d (base d read id path placement)
      (Declaration.base readValue (d.valueAt id) path placement) := by
  have below : ∀ item ∈ baseDirectives d id, d.IsBelow id item.2 :=
    fun _ => isBelow_baseDirective ordered
  rw [base, Declaration.base, baseDirectives_valueAt ordered]
  generalize baseDirectives d id = items at below
  match items with
  | [] => exact .bind (unannotated_computes ordered path agree placement) fun shape _ => .pure _
  | [(a, held)] =>
      rw [ordered.content_valueAt, List.map_singleton]
      dsimp only
      rw [Content.typeExpression?_mapParts, Content.primitive?_mapParts]
      cases (d.node id).content.typeExpression? with
      | none => exact annotated_computes ordered path (below _ List.mem_cons_self) agree a
      | some e => exact .lift _
  | (a, _) :: (b, _) :: _ => exact .lift _

/-- A node is read as its value if that is so of the nodes below it. -/
theorem readWith_computes {id : NodeId} (agree : AgreeBelow d read readValue id) :
    Agree d (readWith d read) (Declaration.readWith readValue) id := by
  intro path placement
  have glances : (d.node id).extensions.map (fun x => (x.1, d.glance x.2)) =
      (d.valueAt id).extensions.map fun x => (x.1, x.2.cut 2) := by
    rw [ordered.extensions_valueAt, List.map_map]
    exact List.map_congr_left fun x _ => by rw [ordered.glance_eq]; rfl
  rw [readWith, Declaration.readWith, glances, ← ordered.extensions_valueAt]
  refine .bind (base_computes ordered path agree placement) fun typed _ => ?_
  obtain ⟨origin, shape⟩ := typed
  dsimp only
  rw [Constraint.applyAll_cut]
  exact .lift_bind fun shape _ => .lift_bind fun metadata _ => .pure _

end Parts

/-- A node is read as its value. The induction is on the levels that are left: what is below a node
comes later in the table, and its value is smaller. -/
theorem readTo_computes {depth k : Nat} {id : NodeId} (enough : d.size - id ≤ depth)
    (enough' : (d.valueAt id).size ≤ k) : Agree d (readTo d depth) (Declaration.readTo k) id := by
  have level {k : Nat} {id : NodeId} (enough : (d.valueAt id).size ≤ k) : ∃ j, k = j + 1 := by
    have positive := (d.valueAt id).size_pos
    exact ⟨k - 1, by omega⟩
  induction depth generalizing k id with
  | zero =>
      intro path placement
      obtain ⟨k, rfl⟩ := level enough'
      rw [ordered.valueAt_outside enough]
      exact .pure _
  | succ depth ih =>
      obtain ⟨k, rfl⟩ := level enough'
      refine readWith_computes ordered fun child below => ?_
      have after := below.after
      have smaller := below.smaller
      exact ih (by omega) (by omega)

theorem declaration_computes (id : NodeId) : Agree d (readTo d d.size) Declaration.ofValue id :=
  readTo_computes ordered (Nat.sub_le _ _) (Nat.le_refl _)

theorem namedTypes_computes (path : Path) (seen : List Bytes) (es : List (Key × NodeId)) :
    Computes d (namedTypes d path seen es)
      (Declarations.namedTypes path seen (es.map fun e => (e.1, d.valueAt e.2))) := by
  induction es generalizing seen with
  | nil => exact .pure []
  | cons e es ih =>
      obtain ⟨key, id⟩ := e
      rw [namedTypes, List.map_cons, Declarations.namedTypes]
      cases key.spelling? with
      | none => exact .lift _
      | some name =>
          refine .bind (declaration_computes ordered id _ _) fun declaration _ => ?_
          dsimp only
          split
          · exact .lift_bind nofun
          · rw [ordered.glance_eq, Naming.ofValue_cut]
            exact .lift_bind fun naming _ => .bind (ih _) fun types _ => .pure _

theorem types_computes : Computes d (types d) (Declarations.typesOf d.value) := by
  rw [types, Declarations.typesOf, Value.directive?, Document.value, ordered.extension?_valueAt]
  cases (d.node Document.root).extension? Directive.types.name with
  | none => exact .pure []
  | some types =>
      dsimp only [Option.map_some]
      rw [ordered.content_valueAt]
      cases (d.node types).content with
      | map es => exact namedTypes_computes ordered _ [] es
      | _ => exact .lift _

theorem declarations_computes : Computes d (declarations d) (Declarations.ofValue d.value) := by
  rw [declarations, Declarations.ofValue, ordered.glance_eq, Naming.ofValue_cut]
  exact .bind (types_computes ordered) fun types _ => .lift_bind fun naming _ =>
    .bind (declaration_computes ordered _ _ _) fun root _ => .pure _

/-- The extraction from the nodes is that from the value of the document. -/
theorem run_eq_extract : run d = extract d := by
  obtain ⟨later, -, ran⟩ := declarations_computes ordered _ (.replicate d.size)
  have read : (declarations d).run' (Array.replicate d.size none) =
      Declarations.ofValue d.value := by
    change Prod.fst <$> StateT.run (declarations d) _ = _
    rw [ran]
    cases Declarations.ofValue d.value <;> rfl
  rw [run, extract, extractValue, read, holdsDataTo_eq ordered (Nat.sub_le _ _)]
  rfl

end Nodes

/-- Extraction depends on the value of a document only, however its nodes are numbered. In
particular a document and the one that is built from its value declare the same, be it a schema or a
defect at a path. -/
theorem run_renumbered {d e : Document} (built : d.IsBuilt) (built' : e.IsBuilt)
    (same : d.value = e.value) :
    run d = run e ∧ (∃ rebuilt, Document.ofValue d.value = .ok rebuilt ∧ run rebuilt = run d) ∧
      run d = extract d := by
  have ofValue {a : Document} (ordered : a.IsOrdered) : run a = extractValue a.value :=
    run_eq_extract ordered
  refine ⟨?_, ?_, run_eq_extract built.isOrdered⟩
  · rw [ofValue built.isOrdered, ofValue built'.isOrdered, same]
  · obtain ⟨slots, tree, rebuilt, value⟩ :=
      (built.isOrdered.valueAt_isOrderly Document.root).rebuilds
    refine ⟨slots.document, rebuilt, ?_⟩
    rw [ofValue tree.isOrdered, ofValue built.isOrdered, value]
    rfl

/-- A record whose fields are numbered before what is below them. -/
private def levelled : Document :=
  ⟨#[⟨.map [(.ident "name", 1), (.ident "age", 2)], []⟩, ⟨.hole, [("type", 3)]⟩,
    ⟨.primitive (.text ⟨"integer", .implicit⟩), []⟩, ⟨.primitive (.text ⟨"text", .plaintext⟩), []⟩]⟩

private def nested : Document :=
  ⟨#[⟨.map [(.ident "name", 1), (.ident "age", 3)], []⟩, ⟨.hole, [("type", 2)]⟩,
    ⟨.primitive (.text ⟨"text", .plaintext⟩), []⟩, ⟨.primitive (.text ⟨"integer", .implicit⟩), []⟩]⟩

theorem run_renumbered_levels :
    levelled.IsBuilt ∧ nested.IsBuilt ∧ levelled.value = nested.value ∧ run levelled = run nested ∧
      ∃ x, run nested = .ok x ∧ x.schema.root = 2 ∧ x.isPure = true := by
  have built : levelled.IsBuilt :=
    .of_run [.insert 0 (.ident "name"), .insert 0 (.ident "age"), .ensure [.ext "type"] 1,
      .assign 2 (.text ⟨"integer", .implicit⟩), .assign 3 (.text ⟨"text", .plaintext⟩)] rfl rfl
  have built' : nested.IsBuilt :=
    .of_run [.insert 0 (.ident "name"), .ensure [.ext "type"] 1,
      .assign 2 (.text ⟨"text", .plaintext⟩),
      .insert 0 (.ident "age"), .assign 3 (.text ⟨"integer", .implicit⟩)] rfl rfl
  have same : levelled.value = nested.value := rfl
  exact ⟨built, built', same, (run_renumbered built built' same).1, _, rfl, rfl, rfl⟩

end Extractor

end DocSchema
