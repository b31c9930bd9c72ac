import DocSchema.Proofs.Truncation
import DocSchema.Proofs.UnionChecks

set_option autoImplicit false

namespace DocSchema

namespace Decides

variable {w : Walk} {parts : SchemaId → Value → Prop} {s : Site}

theorem warn {schema : Schema} {path : Path} {warning : Warning} :
    Decides schema (Walker.warn path warning) True :=
  ⟨_, Walker.log_warn path warning, by simp, by simp⟩

theorem shape (id : SchemaId) {shape : Shape SchemaId} (sound : w.schema.IsSound)
    (explicit : w.isLenient = false) (below : w.DecidesParts parts) (filled : s.value.IsFilled)
    (inside : ∀ child ∈ shape.children, w.schema.contains child = true) (compiles : shape.Compiles)
    (solid : ∀ name, shape ≠ .reference name) :
    Decides w.schema (w.shape id s shape) (shape.Admits w.schema parts s.value) := by
  cases shape with
  | text length p language =>
      simp only [Walk.shape, Shape.Admits]
      cases s.value.text? with
      | none => exact report.congr (by simp)
      | some t =>
          refine (text fun p' same => compiles length p' language (by rw [same])).congr ?_
          simp
  | integer range multipleOf =>
      unfold Walk.shape Shape.Admits
      cases s.value.content with
      | primitive p =>
          cases p with
          | int i => exact integer.congr (by simp)
          | _ => exact report.congr (by simp)
      | _ => exact report.congr (by simp)
  | float range multipleOf =>
      unfold Walk.shape Shape.Admits
      cases s.value.content with
      | primitive p =>
          cases p with
          | float x => exact float.congr (by simp)
          | _ => exact report.congr (by simp)
      | _ => exact report.congr (by simp)
  | boolean =>
      unfold Walk.shape Shape.Admits
      cases s.value.content with
      | primitive p =>
          cases p with
          | bool b => exact pure.congr (by simp)
          | _ => exact report.congr (by simp)
      | _ => exact report.congr (by simp)
  | null =>
      unfold Walk.shape Shape.Admits
      cases s.value.content with
      | primitive p =>
          cases p with
          | null => exact pure.congr (by simp)
          | _ => exact report.congr (by simp)
      | _ => exact report.congr (by simp)
  | any => exact pure
  | literal expected => exact expect
  | record fields allowsUnknown =>
      exact record below filled fun f member => inside f.schema (List.mem_map_of_mem member)
  | array item length isUnique => exact array below filled (inside item (List.mem_singleton_self _))
  | map key value size =>
      exact map sound below filled (inside key List.mem_cons_self)
        (inside value (List.mem_cons_of_mem _ (List.mem_singleton_self _)))
  | tuple types => exact tuple below filled inside
  | union variants representation =>
      exact union ⟨sound, explicit, below, fun v member =>
        inside v.schema (List.mem_map_of_mem member)⟩ filled
  | reference name => exact absurd rfl (solid name)

end Decides

namespace Schema

variable {schema : Schema} {settings : Settings}

/-- One level of a check decides conformance if the level below does. -/
theorem decides_check (sound : schema.IsSound) (explicit : settings.isLenient = false) (depth : Nat)
    (id : SchemaId) (s : Site) (inside : schema.contains id = true) (filled : s.value.IsFilled) :
    Decides schema (schema.check settings depth id s) (Conforms schema id s.value) := by
  induction depth generalizing id s with
  | zero =>
      refine ⟨_, Walker.log_report _ _, by simp, fun complete => absurd ?_ complete⟩
      exact ⟨_, List.mem_singleton_self _, rfl⟩
  | succ depth ih =>
      obtain ⟨node, resolved⟩ := sound.resolves id inside
      have deprecation (deprecated : Bool) :
          Decides schema (Check.deprecation deprecated s.path) True := by
        cases deprecated
        · exact .pure
        · exact .warn
      refine Decides.congr (p := node.shape.Admits schema (Conforms schema) s.value)
        (.follow resolved fun target => ?_) ?_
      · rw [filled.isHole]
        have below : Walk.DecidesParts ⟨schema, settings.isLenient, schema.check settings depth⟩
            (Conforms schema) := ih
        have shaped := Decides.shape target sound explicit below filled (sound.children resolved)
          (sound.pattern resolved) resolved.solid
        exact ((deprecation _).both shaped).congr (by simp)
      · rw [conforms_iff]
        constructor
        · intro admitted
          exact ⟨node, resolved, admitted⟩
        · rintro ⟨other, again, admitted⟩
          exact resolved.functional again ▸ admitted

/-- The parts that the search for holes goes on with are filled and of types in range. -/
theorem required_filled {selections : List Selection} {id : SchemaId} {s : Site}
    {shape : Shape SchemaId} (canFollow : ∀ c ∈ selections, schema.CanFollow c)
    (filled : s.value.IsFilled) (inside : ∀ child ∈ shape.children, schema.contains child = true) :
    ∀ part ∈ s.required selections id shape,
      schema.contains part.1 = true ∧ part.2.1.value.IsFilled := by
  intro part member
  cases shape with
  | record fields allowsUnknown =>
      obtain ⟨f, declared, found⟩ := List.mem_filterMap.1 member
      obtain ⟨site, field, rfl⟩ := Option.map_eq_some_iff.1 found
      exact ⟨inside f.schema (List.mem_map_of_mem declared), filled.fieldSite field⟩
  | array item length isUnique =>
      obtain ⟨site, listed, rfl⟩ := List.mem_map.1 member
      cases found : s.array? with
      | none => simp [found] at listed
      | some sites =>
          rw [found, Option.getD_some] at listed
          exact ⟨inside item (List.mem_singleton_self _), filled.arraySite found site listed⟩
  | map key value size =>
      obtain ⟨e, listed, rfl⟩ := List.mem_map.1 member
      cases found : s.entries? with
      | none => simp [found] at listed
      | some sites =>
          rw [found, Option.getD_some] at listed
          exact ⟨inside value (List.mem_cons_of_mem _ (List.mem_singleton_self _)),
            filled.entrySite found e listed⟩
  | tuple types =>
      obtain ⟨e, listed, rfl⟩ := List.mem_map.1 member
      cases found : s.tuple? with
      | none => simp [found] at listed
      | some sites =>
          rw [found, Option.getD_some] at listed
          have sides := List.of_mem_zip listed
          exact ⟨inside e.1 sides.1, filled.tupleSite found e.2 sides.2⟩
  | union variants representation =>
      simp only [Site.required] at member
      cases found : Selection.last? selections id s with
      | none => simp [found] at member
      | some c =>
          rw [found] at member
          have same := List.mem_singleton.1 member
          subst same
          exact canFollow c (List.mem_reverse.1 (List.mem_of_find?_eq_some found))
  | _ => cases member

/-- The search for holes in a value without holes finds none. -/
theorem complete_filled {selections : List Selection} (sound : schema.IsSound)
    (canFollow : ∀ c ∈ selections, schema.CanFollow c) (depth : Nat) (id : SchemaId) (s : Site)
    (isOptional : Bool) (inside : schema.contains id = true) (filled : s.value.IsFilled) :
    (schema.complete selections depth id s isOptional).log = .ok ((), {}) := by
  induction depth generalizing id s isOptional with
  | zero => rfl
  | succ depth ih =>
      obtain ⟨node, resolved⟩ := sound.resolves id inside
      obtain ⟨target, found⟩ := resolved.target s.path
      unfold complete
      rw [found]
      apply (Walker.log_pure_bind _ _).trans
      dsimp only
      rw [filled.isHole, if_neg Bool.false_ne_true]
      apply Walker.log_forM_of_log
      intro part member
      obtain ⟨partInside, partFilled⟩ :=
        required_filled canFollow filled (sound.children resolved) part member
      exact ih part.1 part.2.1 part.2.2 partInside partFilled

end Schema

/-- Validation without inference of variants and without a limit on errors succeeds, and unless
nesting was cut off it finds no error exactly if the document conforms. -/
theorem validate_decides (d : Document) (schema : Schema) (settings : Settings)
    (explicit : settings.isLenient = false) (unlimited : settings.maxErrors = 0)
    (filled : d.value.IsFilled) (sound : schema.IsSound) :
    ∃ r, validate d schema settings = .ok r ∧
      ((∀ e ∈ r.errors, e.mismatch.kind ≠ utf8 "RecursionLimit") →
        (r.errors = [] ↔ Conforms schema schema.root d.value)) := by
  obtain ⟨found, logged, canFollow, verdict⟩ :=
    schema.decides_check sound explicit settings.maxDepth schema.root ⟨d.value, [], []⟩ sound.rooted
      filled
  have silent := schema.complete_filled sound canFollow settings.maxDepth schema.root
    ⟨d.value, [], []⟩ false sound.rooted filled
  have findings : findingsOf d.value schema schema.root settings = .ok (found ++ {}) := by
    simp [findingsOf, sound.rooted, logged, silent, bind, Except.bind, pure, Except.pure]
  have outcome : validate d schema settings =
      .ok ⟨found.errors, found.warnings, false, found.isIncomplete⟩ := by
    change validateValue d.value schema schema.root settings = _
    rw [validateValue_eq, findings]
    simp only [Except.map, toReport_add, unlimited]
    simp
  refine ⟨_, outcome, fun complete => verdict ?_⟩
  rintro ⟨e, member, limit⟩
  exact complete e member limit

/-- A list of two cells conforms to the type of lists, which refers to itself. -/
theorem validate_decides_list :
    let cells : Document := ⟨#[⟨.map [(.ident "next", 1)], []⟩, ⟨.map [], []⟩]⟩
    let lists : Schema :=
      { nodes := #[⟨.record [⟨"next", 1, true⟩] false, {}⟩, ⟨.reference "List", {}⟩], root := 0
        types := [("List", 0)], distinct := List.nodup_singleton _ }
    (∃ r, validate cells lists {} = .ok r ∧ r.errors = []) ∧
      Conforms lists lists.root cells.value := by
  intro cells lists
  have leaf : Value.IsFilled (.of (.map [])) :=
    .intro (by simp [Value.of, Value.content]) List.nodup_nil (by
      intro part member
      cases member)
  have filled : cells.value.IsFilled := by
    refine .intro (fun hole => by cases hole) (List.nodup_singleton _) ?_
    intro part member
    have same := List.mem_singleton.1 member
    subst same
    exact leaf
  have record : lists.Resolves 0 ⟨.record [⟨"next", 1, true⟩] false, {}⟩ :=
    ⟨[0], 0, .last rfl⟩
  have reference : lists.Resolves 1 ⟨.record [⟨"next", 1, true⟩] false, {}⟩ :=
    ⟨[1, 0], 0, .step rfl (.last rfl)⟩
  have nodes (id : SchemaId) (node : SchemaNode) (found : lists.node? id = some node) :
      node = ⟨.record [⟨"next", 1, true⟩] false, {}⟩ ∨ node = ⟨.reference "List", {}⟩ := by
    rcases id with _ | _ | id
    · exact .inl (Option.some.inj found).symm
    · exact .inr (Option.some.inj found).symm
    · simp [lists, Schema.node?] at found
  have sound : lists.IsSound :=
    { rooted := rfl
      closed := by
        intro id node found child member
        rcases nodes id node found with rfl | rfl
        · have same := List.mem_singleton.1 member
          subst same
          rfl
        · cases member
      resolves := by
        intro id inside
        rcases id with _ | _ | id
        · exact ⟨_, record⟩
        · exact ⟨_, reference⟩
        · exact absurd (of_decide_eq_true inside) (Nat.not_lt.2 (Nat.le_add_left 2 id))
      compiles := by
        intro id node found length p language shaped
        rcases nodes id node found with rfl | rfl <;> cases shaped }
  obtain ⟨r, outcome, verdict⟩ := validate_decides cells lists {} rfl rfl filled sound
  have none : validate cells lists {} = .ok ⟨[], [], false, false⟩ := by rfl
  have same := Except.ok.inj (outcome.symm.trans none)
  subst same
  exact ⟨⟨_, outcome, rfl⟩, (verdict (by simp)).1 rfl⟩

end DocSchema
