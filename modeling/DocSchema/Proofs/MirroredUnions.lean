import DocSchema.Proofs.MirroredWalks

set_option autoImplicit false

namespace DocSchema

open Walker (Mirrors)

variable {root root' : Value}

structure Choice.Mirrors (root root' : Value) (c d : Choice) : Prop where
  variant : d.variant = c.variant
  target : c.target.Mirrors root root' d.target
  tag : d.tag = c.tag

namespace Walk

abbrev ChooseMirrored (root root' : Value) (x y : Walker (Option Choice)) : Prop :=
  Mirrors root root' (Option.Rel (Choice.Mirrors root root')) x y

variable {w : Walk} {u : UnionType} {s t : Site}

theorem refuse_mirrors (path : Path) {m m' : Mismatch} (kinds : m.kind = m'.kind) :
    ChooseMirrored root root' (refuse path m) (refuse path m') :=
  (Mirrors.report path kinds).bind fun _ _ _ => .pure .none

/-- Which fields a record needs and declares does not depend on the order of the entries. -/
theorem hasRequired_perm (fields : List (Field SchemaId)) {xs ys : List Bytes} (perm : xs.Perm ys) :
    hasRequired fields xs = hasRequired fields ys := by
  simp only [hasRequired, perm.contains_eq]

theorem covers_perm (fields : List (Field SchemaId)) {xs ys : List Bytes} (perm : xs.Perm ys) :
    covers fields xs = covers fields ys :=
  perm.all_eq

/-- The entries that name variants are the same, maybe in another order. -/
theorem namedEntries_reordered {es fs : List (Key × Site)}
    (entries : Reordered (EntryMirrors root root') es fs) :
    Reordered (fun e f => f.1 = e.1 ∧ e.2.Mirrors root root' f.2) ((namedEntries u es).map (·.2))
      ((namedEntries u fs).map (·.2)) := by
  have contents (es : List (Key × Site)) : (namedEntries u es).map (·.2) =
      es.filterMap fun e => e.1.spelling?.bind fun name =>
        if (u.find? name).isSome then some (name, e.2) else none := by
    have numbered : (es.mapIdx fun i e => (i, e)).map (·.2) = es := by
      apply List.ext_getElem <;> simp
    conv_rhs => rw [← numbered, List.filterMap_map]
    rw [namedEntries, List.map_filterMap]
    apply List.filterMap_congr
    rintro ⟨i, key, content⟩ -
    rw [Option.map_bind]
    refine congrArg (key.spelling?.bind ·) (funext fun name => ?_)
    rw [Function.comp_apply]
    split <;> rfl
  rw [contents, contents]
  refine entries.filterMap fun e f same => ?_
  rw [same.key]
  cases e.1.spelling? with
  | none => exact .none
  | some name =>
      simp only [Option.bind_some]
      split
      · exact .some ⟨rfl, same.site⟩
      · exact .none

/-- Where only one entry names a variant, it is the same one, and so are the others. -/
theorem namedEntries_single {es fs : List (Key × Site)}
    (entries : Reordered (EntryMirrors root root') es fs)
    (unique : ∀ name, ∀ e ∈ fs,
      ∀ f ∈ fs, e.1.spelling? = some name → f.1.spelling? = some name → e = f)
    {i j : Nat} {name name' : Bytes} {content content' : Site}
    (left : namedEntries u es = [(i, name, content)])
    (right : namedEntries u fs = [(j, name', content')]) :
    name' = name ∧ content.Mirrors root root' content' ∧
      Reordered (EntryMirrors root root') (es.eraseIdx i) (fs.eraseIdx j) := by
  have names := namedEntries_reordered (u := u) entries
  rw [left, right] at names
  obtain ⟨cs, pairs, perm⟩ := names
  rw [List.perm_singleton.1 perm] at pairs
  obtain ⟨rfl, same⟩ := (List.forall₂_cons.1 pairs).1
  obtain ⟨inside, spelled, -⟩ := namedEntries_mem (left ▸ List.mem_singleton_self (i, _, content))
  obtain ⟨inside', spelled', -⟩ :=
    namedEntries_mem (right ▸ List.mem_singleton_self (j, _, content'))
  refine ⟨rfl, same, entries.eraseIdx inside inside' fun f listed same => ?_⟩
  exact unique _ f listed _ (List.getElem_mem inside') (by rw [same.key, spelled]) spelled'

section Sites

variable (mirrors : s.Mirrors root root' t)
include mirrors

theorem choose_mirrors (name : Bytes) (tagPath : Path) (tag : Option Bytes) :
    ChooseMirrored root root' (choose u name s tagPath tag) (choose u name t tagPath tag) := by
  unfold choose
  cases u.find? name with
  | none => exact refuse_mirrors tagPath rfl
  | some v => exact .pure (.some ⟨rfl, mirrors, rfl⟩)

theorem agreed_mirrors {x y : Walker (Option Choice)} (chosen : ChooseMirrored root root' x y)
    (extension : Option Bytes) (name : Bytes) :
    ChooseMirrored root root' (agreed s extension name x) (agreed t extension name y) := by
  unfold agreed
  rw [mirrors.path]
  split
  · exact refuse_mirrors s.path rfl
  · exact chosen

theorem withTag_mirrors {h k : Bytes → Walker (Option Choice)}
    (next : ∀ name, ChooseMirrored root root' (h name) (k name)) :
    ChooseMirrored root root' (withTag s h) (withTag t k) := by
  unfold withTag
  rw [mirrors.text?, mirrors.path]
  split
  · exact next _
  · exact refuse_mirrors s.path rfl

theorem extensionPath_mirrors : extensionPath t = extensionPath s := by
  rw [extensionPath, extensionPath, mirrors.path]

theorem contentless_mirrors (content name : Bytes) (tagPath : Path) :
    Mirrors root root' Eq (w.contentless u content name s tagPath)
      (w.contentless u content name t tagPath) := by
  have same : w.contentless u content name t tagPath = w.contentless u content name s tagPath := by
    unfold contentless
    rw [mirrors.path]
  rw [same]
  exact .of_ensures (contentless_ensures content name tagPath)

theorem adjacentNamed_mirrors (content name : Bytes) (tagPath : Path) :
    ChooseMirrored root root' (w.adjacentNamed u content name s tagPath)
      (w.adjacentNamed u content name t tagPath) := by
  unfold adjacentNamed
  rcases eq_of_rel (mirrors.field? content) with ⟨left, right⟩ | ⟨part, part', left, right, same⟩
  · rw [left, right]
    exact (contentless_mirrors mirrors content name tagPath).bind fun _ _ _ => .pure .none
  · rw [left, right]
    exact choose_mirrors same name tagPath none

end Sites

namespace IsMirrored

variable (walk : w.IsMirrored root root') (mirrors : s.Mirrors root root' t)
include walk mirrors

theorem candidate? (v : Variant SchemaId) :
    Mirrors root root' Eq (w.candidate? s v) (w.candidate? t v) := by
  have tried : Mirrors root root' Eq
      (do return if ← Walker.accepts (w.check v.schema s) then some false else none)
      (do return if ← Walker.accepts (w.check v.schema t) then some false else none) := by
    refine (walk.check v.schema s t mirrors).accepts.bind fun a b same => ?_
    rw [same]
    exact .pure rfl
  unfold Walk.candidate?
  rw [mirrors.path]
  refine .bind (.of_ensures (Walker.target_ensures w.schema v.schema s.path)) fun a b same => ?_
  subst same
  cases a with
  | undefined name => exact .pure rfl
  | node id node =>
      obtain ⟨shape, metadata⟩ := node
      dsimp only
      cases shape
      case record fields allowsUnknown =>
        rcases eq_of_rel mirrors.entries? with ⟨left, right⟩ | ⟨es, fs, left, right, entries⟩
        · rw [left, right]
          exact tried
        · rw [left, right]
          have names : Reordered Eq (es.filterMap (·.1.spelling?))
              (fs.filterMap (·.1.spelling?)) := by
            refine entries.filterMap fun e f same => ?_
            rw [same.key]
            cases e.1.spelling? with
            | none => exact .none
            | some name => exact .some rfl
          dsimp only
          rw [hasRequired_perm fields names.perm, covers_perm fields names.perm]
          exact .pure rfl
      all_goals exact tried

theorem candidates (vs : List (Variant SchemaId)) :
    Mirrors root root' Eq (w.candidates s vs) (w.candidates t vs) := by
  induction vs with
  | nil => exact .pure rfl
  | cons v vs ih =>
      refine (walk.candidate? mirrors v).bind fun a b same => ?_
      subst same
      refine ih.bind fun others others' same => ?_
      subst same
      exact .pure rfl

theorem infer : ChooseMirrored root root' (w.infer u s) (w.infer u t) := by
  unfold Walk.infer
  refine (walk.candidates mirrors u.variants).bind fun found found' same => ?_
  subst same
  rw [mirrors.path]
  split
  · exact choose_mirrors mirrors _ s.path none
  · split <;> exact refuse_mirrors s.path rfl

theorem untagged : ChooseMirrored root root' (w.untagged u s) (w.untagged u t) := by
  unfold Walk.untagged
  split
  · exact walk.infer mirrors
  · rw [mirrors.path]
    split <;> exact refuse_mirrors s.path rfl

theorem byExtension (extension : Option Bytes) :
    ChooseMirrored root root' (w.byExtension u s extension) (w.byExtension u t extension) := by
  cases extension with
  | none => exact walk.untagged mirrors
  | some name =>
      unfold Walk.byExtension
      rw [extensionPath_mirrors mirrors]
      exact choose_mirrors mirrors name _ none

theorem external (extension : Option Bytes) :
    ChooseMirrored root root' (w.external u s extension) (w.external u t extension) := by
  have entries : Reordered (EntryMirrors root root') (s.entries?.getD []) (t.entries?.getD []) :=
    .getD mirrors.entries?
  have lengths : (namedEntries u (s.entries?.getD [])).length =
      (namedEntries u (t.entries?.getD [])).length := by
    simpa using (namedEntries_reordered (u := u) entries).length_eq
  unfold Walk.external
  dsimp only
  match named : namedEntries u (s.entries?.getD []), named' : namedEntries u (t.entries?.getD []) with
  | [], [] =>
      dsimp only
      split
      · exact walk.byExtension mirrors extension
      · rw [mirrors.path]
        exact refuse_mirrors s.path rfl
  | [(i, name, content)], [(j, name', content')] =>
      obtain ⟨rfl, same, others⟩ := namedEntries_single entries mirrors.spelled_unique named named'
      refine agreed_mirrors mirrors ?_ extension _
      rw [same.path]
      exact (unknownFields_mirrors others _).bind
        fun _ _ _ => choose_mirrors same _ content.path none
  | _ :: _ :: _, _ :: _ :: _ =>
      rw [mirrors.path]
      exact refuse_mirrors s.path rfl
  | [], _ :: _ => simp [named, named'] at lengths
  | _ :: _, [] => simp [named, named'] at lengths
  | [_], _ :: _ :: _ => simp [named, named'] at lengths
  | _ :: _ :: _, [_] => simp [named, named'] at lengths

theorem internal (tag : Bytes) (extension : Option Bytes) :
    ChooseMirrored root root' (w.internal u tag s extension) (w.internal u tag t extension) := by
  unfold Walk.internal
  rcases eq_of_rel mirrors.entries? with ⟨left, right⟩ | ⟨es, fs, left, right, -⟩
  · rw [left, right, mirrors.path]
    exact refuse_mirrors s.path rfl
  · simp only [left, right, Option.isNone_some, Bool.false_eq_true, ↓reduceIte]
    rcases eq_of_rel (mirrors.field? tag) with ⟨left, right⟩ | ⟨field, field', left, right, same⟩
    · simp only [left, right]
      exact walk.byExtension mirrors extension
    · simp only [left, right]
      refine withTag_mirrors same fun name => agreed_mirrors mirrors ?_ extension name
      rw [same.path]
      exact choose_mirrors mirrors name field.path (some tag)

theorem adjacent (tag content : Bytes) (extension : Option Bytes) :
    ChooseMirrored root root' (w.adjacent u tag content s extension)
      (w.adjacent u tag content t extension) := by
  unfold Walk.adjacent
  rcases eq_of_rel mirrors.entries? with ⟨left, right⟩ | ⟨es, fs, left, right, entries⟩
  · rw [left, right, mirrors.path]
    exact refuse_mirrors s.path rfl
  rw [left, right]
  refine (unknownFields_mirrors entries _).bind fun _ _ _ => ?_
  rcases eq_of_rel (mirrors.field? tag) with ⟨left, right⟩ | ⟨field, field', left, right, same⟩
  · rw [left, right]
    cases extension with
    | some name =>
        dsimp only
        rw [extensionPath_mirrors mirrors]
        exact adjacentNamed_mirrors mirrors content name _
    | none =>
        rcases eq_of_rel (mirrors.field? content) with ⟨left, right⟩ | ⟨part, part', left, right, same⟩
        · simp only [left, right]
          rw [mirrors.path]
          exact refuse_mirrors s.path rfl
        · simp only [left, right]
          exact walk.untagged same
  · simp only [left, right]
    refine withTag_mirrors same fun name => agreed_mirrors mirrors ?_ extension name
    rw [same.path]
    exact adjacentNamed_mirrors mirrors content name field.path

/-- A union chooses one variant for mirrored sites. -/
theorem dispatch (u : UnionType) : ChooseMirrored root root' (w.dispatch u s) (w.dispatch u t) := by
  unfold Walk.dispatch
  extract_lets named named'
  have chosen (extension : Option Bytes) :
      ChooseMirrored root root' (named extension) (named' extension) := by
    unfold named named'
    cases u.representation with
    | tagged => exact walk.byExtension mirrors extension
    | external => exact walk.external mirrors extension
    | internal tag => exact walk.internal mirrors tag extension
    | adjacent tag content => exact walk.adjacent mirrors tag content extension
  rcases eq_of_rel (Value.extension?_same mirrors.equal.left mirrors.equal.same "variant") with
    ⟨left, right⟩ | ⟨a, b, left, right, same⟩
  · rw [left, right]
    exact chosen none
  · rw [left, right]
    dsimp only
    rw [Value.text?_same same, extensionPath_mirrors mirrors]
    cases a.text? with
    | none => exact refuse_mirrors _ rfl
    | some text => exact chosen _

theorem variant (id : SchemaId) (tag : Option Bytes) :
    Mirrors root root' Eq (w.variant id tag s) (w.variant id tag t) := by
  cases tag with
  | none => exact walk.check id s t mirrors
  | some name =>
      unfold Walk.variant
      dsimp only
      rw [mirrors.path]
      refine .bind (.of_ensures (Walker.follow_ensures w.schema id s.path)) fun a b same => ?_
      subst same
      cases a with
      | none => exact .pure rfl
      | some found =>
          obtain ⟨target, shape, metadata⟩ := found
          dsimp only
          cases shape
          case record fields allowsUnknown =>
            exact walk.record mirrors fields allowsUnknown (some name)
          case null => exact unknownFields_mirrors (.getD mirrors.entries?) _
          all_goals exact walk.check id s t mirrors

theorem union (u : UnionType) : Mirrors root root' Eq (w.union u s) (w.union u t) := by
  refine (walk.dispatch mirrors u).bind fun a b chosen => ?_
  cases chosen with
  | none => exact .pure rfl
  | @some c d same =>
      have selections : Selection.Mirrors root root' ⟨s.position, u.id, c.variant.schema, c.target⟩
          ⟨t.position, u.id, d.variant.schema, d.target⟩ := ⟨rfl, by rw [same.variant], same.target⟩
      refine (Mirrors.select selections mirrors.meets).bind fun _ _ _ => ?_
      rw [same.variant, same.tag]
      exact walk.variant same.target c.variant.schema c.tag

/-- Mirrored sites are treated alike by every type. -/
theorem shape (id : SchemaId) (shape : Shape SchemaId) :
    Mirrors root root' Eq (w.shape id s shape) (w.shape id t shape) := by
  cases shape with
  | record fields allowsUnknown => exact walk.record mirrors fields allowsUnknown none
  | array item length isUnique => exact walk.array mirrors item length isUnique
  | map key value size => exact walk.map mirrors key value size
  | tuple elements => exact walk.tuple mirrors elements
  | union variants representation => exact walk.union mirrors ⟨id, variants, representation⟩
  | any => exact .pure rfl
  | reference name => exact .abort _ _
  | literal expected => exact shape_literal mirrors id expected
  | text length pattern language => exact shape_text mirrors id length pattern language
  | integer range multipleOf => exact shape_integer mirrors id range multipleOf
  | float range multipleOf => exact shape_float mirrors id range multipleOf
  | boolean | null =>
      unfold Walk.shape
      dsimp only
      rcases mirrors.primitive? with same | ⟨x, y, left, right, floats⟩
      · rw [same]
        split
        · exact .pure rfl
        · exact mirrors.wrongKind _
      · rw [left, right]
        exact mirrors.wrongKind _

end IsMirrored

end Walk

end DocSchema
