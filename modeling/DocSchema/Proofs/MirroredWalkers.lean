import DocSchema.Proofs.Alike
import DocSchema.Proofs.MirroredSites

set_option autoImplicit false

namespace DocSchema

/-- Whether two selections choose one variant of one union for mirrored contents. -/
structure Selection.Mirrors (root root' : Value) (c d : Selection) : Prop where
  union : d.union = c.union
  variant : d.variant = c.variant
  target : c.target.Mirrors root root' d.target

namespace Findings

def selectionsAt (f : Findings) (position : List Nat) : List Selection :=
  f.selections.filter (·.position == position)

theorem selectionsAt_append (f g : Findings) (position : List Nat) :
    (f ++ g).selectionsAt position = f.selectionsAt position ++ g.selectionsAt position := by
  rw [selectionsAt, selections_append, List.filter_append]
  rfl

theorem selectionsAt_nil {f : Findings} (silent : f.selections = []) (position : List Nat) :
    f.selectionsAt position = [] := by
  rw [selectionsAt, silent]
  rfl

/-- Whether two walks found the same but for the order, where the selections for one position keep
theirs. -/
structure Shuffled (f g : Findings) : Prop where
  errors : f.errors.Perm g.errors
  warnings : f.warnings.Perm g.warnings
  isIncomplete : f.isIncomplete = g.isIncomplete
  selections : ∀ position, f.selectionsAt position = g.selectionsAt position

/-- Whether walks over two equal values found the same but for the order and for what messages
say. -/
structure Mirrors (root root' : Value) (f g : Findings) : Prop where
  errors : (f.errors.map Finding.summary).Perm (g.errors.map Finding.summary)
  warnings : f.warnings.Perm g.warnings
  isIncomplete : f.isIncomplete = g.isIncomplete
  selections : ∀ p v q w, Meets root root' p v q w →
    List.Forall₂ (Selection.Mirrors root root') (f.selectionsAt p) (g.selectionsAt q)

def Apart (f g : Findings) : Prop :=
  ∀ position, f.selectionsAt position = [] ∨ g.selectionsAt position = []

theorem Apart.symm {f g : Findings} (apart : f.Apart g) : g.Apart f :=
  fun position => (apart position).symm

namespace Shuffled

variable {f f' g g' h : Findings}

theorem refl (f : Findings) : f.Shuffled f :=
  ⟨.refl _, .refl _, rfl, fun _ => rfl⟩

theorem trans (first : f.Shuffled g) (second : g.Shuffled h) : f.Shuffled h where
  errors := first.errors.trans second.errors
  warnings := first.warnings.trans second.warnings
  isIncomplete := first.isIncomplete.trans second.isIncomplete
  selections position := (first.selections position).trans (second.selections position)

theorem append (first : f.Shuffled f') (second : g.Shuffled g') : (f ++ g).Shuffled (f' ++ g') where
  errors := first.errors.append second.errors
  warnings := first.warnings.append second.warnings
  isIncomplete := by simp [first.isIncomplete, second.isIncomplete]
  selections position := by
    rw [selectionsAt_append, selectionsAt_append, first.selections, second.selections]

theorem swap (apart : f.Apart g) : (f ++ g).Shuffled (g ++ f) where
  errors := List.perm_append_comm
  warnings := List.perm_append_comm
  isIncomplete := Bool.or_comm _ _
  selections position := by
    rw [selectionsAt_append, selectionsAt_append]
    rcases apart position with none | none
    · rw [none, List.nil_append, List.append_nil]
    · rw [none, List.nil_append, List.append_nil]

end Shuffled

namespace Mirrors

variable {root root' : Value} {f f' g g' h : Findings}

theorem append (first : f.Mirrors root root' f') (second : g.Mirrors root root' g') :
    (f ++ g).Mirrors root root' (f' ++ g') where
  errors := by
    rw [errors_append, errors_append, List.map_append, List.map_append]
    exact first.errors.append second.errors
  warnings := first.warnings.append second.warnings
  isIncomplete := by simp [first.isIncomplete, second.isIncomplete]
  selections p v q w meets := by
    rw [selectionsAt_append, selectionsAt_append]
    exact List.rel_append (first.selections p v q w meets) (second.selections p v q w meets)

theorem shuffled (mirrors : f.Mirrors root root' g) (shuffled : g.Shuffled h) :
    f.Mirrors root root' h where
  errors := mirrors.errors.trans (shuffled.errors.map _)
  warnings := mirrors.warnings.trans shuffled.warnings
  isIncomplete := mirrors.isIncomplete.trans shuffled.isIncomplete
  selections p v q w meets := shuffled.selections q ▸ mirrors.selections p v q w meets

/-- Without selections there is only the order. -/
theorem of_alike (alike : f.Alike g) (left : f.selections = []) (right : g.selections = []) :
    f.Mirrors root root' g where
  errors := .of_eq alike.errors
  warnings := .of_eq alike.warnings
  isIncomplete := alike.isIncomplete
  selections p v q w _ := by
    rw [selectionsAt_nil left, selectionsAt_nil right]
    exact .nil

theorem isEmpty_errors (mirrors : f.Mirrors root root' g) :
    f.errors.isEmpty = g.errors.isEmpty := by
  rw [← List.isEmpty_map, mirrors.errors.isEmpty_eq, List.isEmpty_map]

end Mirrors

end Findings

namespace Walker

variable {α β γ δ : Type}

/-- Whether two walks both fail or find the same but for the order. -/
inductive Shuffled (x y : Walker Unit) : Prop
  | failed {e e' : Failure} (left : x.log = .error e) (right : y.log = .error e')
  | found {f g : Findings} (left : x.log = .ok ((), f)) (right : y.log = .ok ((), g))
      (findings : f.Shuffled g)

/-- Whether no position has selections of both walks, if both end. -/
def Apart (x y : Walker Unit) : Prop :=
  ∀ f g, x.log = .ok ((), f) → y.log = .ok ((), g) → f.Apart g

theorem Apart.symm {x y : Walker Unit} (apart : x.Apart y) : y.Apart x :=
  fun f g left right => (apart g f right left).symm

namespace Shuffled

variable {x y z : Walker Unit}

theorem refl (x : Walker Unit) : x.Shuffled x := by
  cases logged : x.log with
  | error e => exact .failed logged logged
  | ok found => exact .found logged logged (.refl _)

theorem trans (first : x.Shuffled y) (second : y.Shuffled z) : x.Shuffled z := by
  cases first with
  | failed left right =>
      cases second with
      | failed left' right' => exact .failed left right'
      | found left' right' findings => cases right.symm.trans left'
  | found left right findings =>
      cases second with
      | failed left' right' => cases right.symm.trans left'
      | found left' right' findings' =>
          cases right.symm.trans left'
          exact .found left right' (findings.trans findings')

theorem bind (rest : y.Shuffled z) : (x >>= fun _ => y).Shuffled (x >>= fun _ => z) := by
  cases first : x.log with
  | error e => exact .failed (log_bind_error first) (log_bind_error first)
  | ok found =>
      obtain ⟨⟨⟩, f⟩ := found
      cases rest with
      | failed left right =>
          exact .failed (log_bind_ok_error first left) (log_bind_ok_error first right)
      | found left right findings =>
          exact .found (log_bind_ok first left) (log_bind_ok first right)
            (Findings.Shuffled.append (.refl f) findings)

/-- Two walks in a row may change places. -/
theorem swap (apart : x.Apart y) (z : Walker Unit) :
    (x >>= fun _ => y >>= fun _ => z).Shuffled (y >>= fun _ => x >>= fun _ => z) := by
  cases first : x.log with
  | error e =>
      cases second : y.log with
      | error e' => exact .failed (log_bind_error first) (log_bind_error second)
      | ok found =>
          exact .failed (log_bind_error first) (log_bind_ok_error second (log_bind_error first))
  | ok found =>
      obtain ⟨⟨⟩, f⟩ := found
      cases second : y.log with
      | error e =>
          exact .failed (log_bind_ok_error first (log_bind_error second)) (log_bind_error second)
      | ok found' =>
          obtain ⟨⟨⟩, g⟩ := found'
          cases last : z.log with
          | error e =>
              exact .failed (log_bind_ok_error first (log_bind_ok_error second last))
                (log_bind_ok_error second (log_bind_ok_error first last))
          | ok found'' =>
              obtain ⟨⟨⟩, h⟩ := found''
              refine .found (log_bind_ok first (log_bind_ok second last))
                (log_bind_ok second (log_bind_ok first last)) ?_
              rw [← Findings.append_assoc, ← Findings.append_assoc]
              exact (Findings.Shuffled.swap (apart f g first second)).append (.refl h)

/-- Steps of which no two select for one position may be taken in any order. -/
theorem forM {as bs : List α} {h : α → Walker Unit} (perm : as.Perm bs)
    (apart : as.Pairwise fun a b => (h a).Apart (h b)) : (as.forM h).Shuffled (bs.forM h) := by
  induction perm with
  | nil => exact .refl _
  | cons a rest ih => exact .bind (ih (List.pairwise_cons.1 apart).2)
  | swap a b rest => exact .swap ((List.pairwise_cons.1 apart).1 a List.mem_cons_self) _
  | trans first second ih ih' => exact (ih apart).trans (ih' (first.pairwise apart .symm))

end Shuffled

/-- Whether two walkers both fail or find the same but for the order, where `same` compares their
results. -/
inductive Mirrors (root root' : Value) (same : α → β → Prop) (x : Walker α) (y : Walker β) : Prop
  | failed {e e' : Failure} (left : x.log = .error e) (right : y.log = .error e')
  | found {a : α} {b : β} {f g : Findings} (left : x.log = .ok (a, f)) (right : y.log = .ok (b, g))
      (results : same a b) (findings : f.Mirrors root root' g)

namespace Mirrors

variable {root root' : Value} {same : α → β → Prop} {next : γ → δ → Prop} {x : Walker α}
  {y : Walker β}

/-- Walkers that are alike and select nothing mirror each other. -/
theorem of_alike {x y : Walker α} {post : α → Prop} (alike : Alike Eq x y) (left : Ensures post x)
    (right : Ensures post y) : Mirrors root root' Eq x y := by
  cases alike with
  | failed log log' failures => exact .failed log log'
  | found log log' results findings =>
      exact .found log log' results
        (.of_alike findings (left _ _ log).2.selections (right _ _ log').2.selections)

theorem of_silent {x : Walker α} (silent : ∀ a f, x.log = .ok (a, f) → f.selections = []) :
    Mirrors root root' Eq x x := by
  cases logged : x.log with
  | error e => exact .failed logged logged
  | ok found =>
      exact .found logged logged rfl (.of_alike (.refl _) (silent _ _ logged) (silent _ _ logged))

theorem of_ensures {x : Walker α} {post : α → Prop} (ensures : Ensures post x) :
    Mirrors root root' Eq x x :=
  of_silent fun a f logged => (ensures a f logged).2.selections

theorem pure {a : α} {b : β} (results : same a b) :
    Mirrors root root' same (Pure.pure a) (Pure.pure b) :=
  .found rfl rfl results (.of_alike (.refl _) rfl rfl)

theorem abort (e e' : Failure) : Mirrors root root' same (Walker.abort e) (Walker.abort e') :=
  .failed rfl rfl

theorem report (path : Path) {m m' : Mismatch} (kinds : m.kind = m'.kind) :
    Mirrors root root' Eq (Walker.report path m) (Walker.report path m') :=
  .of_alike (.report path kinds) .report .report

theorem expect {holds holds' : Bool} (path : Path) {m m' : Mismatch} (decisions : holds = holds')
    (kinds : m.kind = m'.kind) :
    Mirrors root root' Eq (Check.expect holds path m) (Check.expect holds' path m') :=
  .of_alike (Check.alike_expect path decisions kinds) (Check.expect_ensures _ _ _)
    (Check.expect_ensures _ _ _)

/-- Selections for mirrored sites. -/
theorem select {c d : Selection} {v w : Value} (selections : c.Mirrors root root' d)
    (meets : Meets root root' c.position v d.position w) :
    Mirrors root root' Eq (Walker.select c) (Walker.select d) := by
  refine .found rfl rfl rfl ⟨.refl _, .refl _, rfl, fun p a q b again => ?_⟩
  have here : (c.position == p) = (d.position == q) := by
    rw [Bool.eq_iff_iff, beq_iff_eq, beq_iff_eq]
    exact meets.position_iff again
  change List.Forall₂ _ ([c].filter _) ([d].filter _)
  rw [List.filter_cons, List.filter_cons, here]
  split
  · exact .cons selections .nil
  · exact .nil

theorem bind {h : α → Walker γ} {k : β → Walker δ} (mirrors : Mirrors root root' same x y)
    (further : ∀ a b, same a b → Mirrors root root' next (h a) (k b)) :
    Mirrors root root' next (x >>= h) (y >>= k) := by
  cases mirrors with
  | failed left right => exact .failed (log_bind_error left) (log_bind_error right)
  | @found a b f g left right results findings =>
      cases further a b results with
      | failed left' right' =>
          exact .failed (log_bind_ok_error left left') (log_bind_ok_error right right')
      | found left' right' results' findings' =>
          exact .found (log_bind_ok left left') (log_bind_ok right right') results'
            (findings.append findings')

theorem shuffled {x y z : Walker Unit} (mirrors : Mirrors root root' Eq x y)
    (shuffled : y.Shuffled z) :
    Mirrors root root' Eq x z := by
  cases mirrors with
  | failed left right =>
      cases shuffled with
      | failed left' right' => exact .failed left right'
      | found left' right' findings => cases right.symm.trans left'
  | found left right results findings =>
      cases shuffled with
      | failed left' right' => cases right.symm.trans left'
      | found left' right' findings' =>
          cases right.symm.trans left'
          exact .found left right' results (findings.shuffled findings')

theorem forM {as : List α} {bs : List β} {h : α → Walker Unit} {k : β → Walker Unit}
    (each : List.Forall₂ (fun a b => Mirrors root root' Eq (h a) (k b)) as bs) :
    Mirrors root root' Eq (as.forM h) (bs.forM k) := by
  induction each with
  | nil => exact pure rfl
  | cons first rest ih => exact first.bind fun _ _ _ => ih

/-- Steps for items in another order. -/
theorem forM_reordered {related : α → β → Prop} {as : List α} {bs : List β} {h : α → Walker Unit}
    {k : β → Walker Unit} (items : Reordered related as bs)
    (each : ∀ a b, related a b → Mirrors root root' Eq (h a) (k b))
    (apart : bs.Pairwise fun a b => (k a).Apart (k b)) :
    Mirrors root root' Eq (as.forM h) (bs.forM k) := by
  obtain ⟨cs, pairs, perm⟩ := items
  have first : Mirrors root root' Eq (as.forM h) (cs.forM k) :=
    .forM (pairs.imp fun {a b} => each a b)
  exact first.shuffled (.forM perm (perm.symm.pairwise apart .symm))

/-- Trials of walks that mirror each other come out the same. -/
theorem accepts {x y : Walker Unit} (mirrors : Mirrors root root' Eq x y) :
    Mirrors root root' Eq x.accepts y.accepts := by
  cases mirrors with
  | failed left right =>
      exact .failed (accepts_error left) (accepts_error right)
  | found left right results findings =>
      exact .found (accepts_ok left) (accepts_ok right) findings.isEmpty_errors
        (.of_alike (.refl {}) rfl rfl)

end Mirrors

/-- Walks that select nothing are apart from all others. -/
theorem Ensures.apart {x : Walker Unit} {post : Unit → Prop} (ensures : Ensures post x)
    (y : Walker Unit) :
    x.Apart y :=
  fun _ _ left _ position => .inl (Findings.selectionsAt_nil (ensures _ _ left).2.selections position)

/-- Whether a walk selects only for a position and for those below. -/
def SelectsBelow (position : List Nat) (x : Walker Unit) : Prop :=
  ∀ cs, x.Selects cs → ∀ c ∈ cs, position <+: c.position

namespace SelectsBelow

variable {x y : Walker Unit} {p q : List Nat}

theorem after {post : Unit → Prop} (ensures : Ensures post x) (below : y.SelectsBelow p) :
    (x >>= fun _ => y).SelectsBelow p := by
  intro cs selects
  obtain ⟨ds, es, ⟨f, logged, rfl⟩, rest, rfl⟩ := selects.of_bind
  rw [(ensures _ _ logged).2.selections, List.nil_append]
  exact below es rest

/-- Walks that select for positions with nothing below in common are apart. -/
theorem apart (left : x.SelectsBelow p) (right : y.SelectsBelow q)
    (separate : ∀ position, p <+: position → ¬ q <+: position) : x.Apart y := by
  intro f g logged logged' position
  by_cases inside : p <+: position
  · refine .inr (List.filter_eq_nil_iff.2 fun c member here => ?_)
    have here : c.position = position := beq_iff_eq.1 here
    exact separate position inside (here ▸ right _ ⟨g, logged', rfl⟩ c member)
  · refine .inl (List.filter_eq_nil_iff.2 fun c member here => ?_)
    have here : c.position = position := beq_iff_eq.1 here
    exact inside (here ▸ left _ ⟨f, logged, rfl⟩ c member)

end SelectsBelow

end Walker

end DocSchema
