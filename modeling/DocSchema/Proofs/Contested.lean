import DocSchema.Proofs.Commuting

set_option autoImplicit false

namespace DocSchema

theorem Directive.name_of_ofName? {s : Bytes} {a : Directive} (found : ofName? s = some a) :
    a.name = s := by
  have named : ∀ entry ∈ names, entry.1.name = utf8 entry.2 := by
    decide +kernel
  obtain ⟨entry, first, rfl⟩ := Option.map_eq_some_iff.1 found
  have spelled : utf8 entry.2 = s := by
    simpa using List.find?_some first
  exact (named entry (List.mem_of_find?_eq_some first)).trans spelled

namespace Constraint

/-- Whether the extensions of two names are constraints that compete. -/
def compete (name other : Bytes) : Bool :=
  match Directive.ofName? name, Directive.ofName? other with
  | some a, some b => competes a b
  | _, _ => false

/-- Whether an extension competes with one of the names. -/
def isContested (names : List Bytes) (name : Bytes) : Bool :=
  names.any (compete name)

/-- The names that compete with another one, in their order. -/
def contested (names : List Bytes) : List Bytes :=
  names.filter (isContested names)

variable {α : Type} {a b g : Directive}

theorem competes_comm (a b : Directive) : competes a b = competes b a := by
  have shared (x y : List End) : x.any y.contains = y.any x.contains := by
    refine Bool.eq_iff_iff.2 ?_
    simp only [List.any_eq_true, List.contains_iff_mem]
    exact exists_congr fun _ => and_comm
  rw [competes, competes, shared, bne_comm, BEq.comm (a := target? a)]

theorem compete_eq {name other : Bytes} (named : Directive.ofName? name = some a)
    (named' : Directive.ofName? other = some b) : compete name other = competes a b := by
  rw [compete, named, named']

/-- Where one of two bounds on a count is contested, so is the other one. -/
theorem competes_of_bounds
    (counts : target? a = some .text ∨ target? a = some .array ∨ target? a = some .map)
    (same : target? b = target? a) (free : competes a b = false) (bounds : ends a ≠ [])
    (bounds' : ends b ≠ [])
    (other : competes g a = true) : competes g b = true := by
  have kind : target? g = target? a := by
    simp only [competes, Bool.and_eq_true, beq_iff_eq] at other
    exact other.1.2
  rcases counts with text | array | map
  · have text_bound {c : Directive} (constrains : target? c = some .text) (bounds : ends c ≠ []) :
        c = .length ∨ c = .minLength ∨ c = .maxLength := by
      cases c with
      | length => exact .inl rfl
      | minLength => exact .inr (.inl rfl)
      | maxLength => exact .inr (.inr rfl)
      | pattern | language => exact absurd rfl bounds
      | _ => cases constrains
    have bounds'' : ends g ≠ [] := by
      rintro none
      simp [competes, none] at other
    rcases text_bound text bounds with rfl | rfl | rfl <;>
      rcases text_bound (same.trans text) bounds' with rfl | rfl | rfl <;>
      rcases text_bound (kind.trans text) bounds'' with rfl | rfl | rfl <;>
      first | exact absurd free (by decide) | exact absurd other (by decide) | decide
  · have array_bound {c : Directive} (constrains : target? c = some .array) :
        c = .minItems ∨ c = .maxItems ∨ c = .unique := by
      cases c with
      | minItems => exact .inl rfl
      | maxItems => exact .inr (.inl rfl)
      | unique => exact .inr (.inr rfl)
      | _ => cases constrains
    rcases array_bound array with rfl | rfl | rfl <;>
      rcases array_bound (kind.trans array) with rfl | rfl | rfl <;> exact absurd other (by decide)
  · have map_bound {c : Directive} (constrains : target? c = some .map) :
        c = .minSize ∨ c = .maxSize := by
      cases c with
      | minSize => exact .inl rfl
      | maxSize => exact .inr rfl
      | _ => cases constrains
    rcases map_bound map with rfl | rfl <;>
      rcases map_bound (kind.trans map) with rfl | rfl <;> exact absurd other (by decide)

def applied? (s : Shape α) (e : Bytes × Value) : Option (Shape α) :=
  (apply e.1 e.2 s).toOption

theorem toOption_applyAll (path : Path) (s : Shape α) (x : List (Bytes × Value)) :
    (applyAll path s x).toOption = x.foldlM applied? s := by
  induction x generalizing s with
  | nil => rfl
  | cons e x ih =>
      rw [applyAll, List.foldlM_cons, applied?]
      cases apply e.1 e.2 s with
      | ok t => exact ih t
      | error defect => rfl

/-- Whether the uncontested bounds among the extensions are yet to be set. -/
def Vacant (names : List Bytes) (x : List (Bytes × Value)) (s : Shape α) : Prop :=
  ∀ e ∈ x, isContested names e.1 = false →
    ∀ a, Directive.ofName? e.1 = some a → target? a = s.target? →
    ∀ bounded ∈ ends a, s.counts.at? bounded = none

variable {names : List Bytes} {s t : Shape α} {e f : Bytes × Value} {x y : List (Bytes × Value)}

theorem free_of_uncontested {name other : Bytes} (uncontested : isContested names name = false)
    (among : other ∈ names) : compete name other = false := by
  simpa using List.any_eq_false.1 uncontested other among

theorem isSound_of_applied? (sound : s.IsSound) (applied : applied? s e = some t) : t.IsSound := by
  rw [applied?] at applied
  cases done : apply e.1 e.2 s with
  | error defect =>
      rw [done] at applied
      cases applied
  | ok t' =>
      rw [done] at applied
      cases applied
      exact (apply_gives e.1 e.2 sound t done).1

theorem applied?_eq (s : Shape α) (named : Directive.ofName? e.1 = some a) :
    applied? s e = constrain? a e.2 s := by
  rw [applied?, toOption_apply, named]
  rfl

theorem applied?_eq_some (s : Shape α) (unnamed : Directive.ofName? e.1 = none) :
    applied? s e = some s := by
  rw [applied?, toOption_apply, unnamed]
  rfl

theorem Vacant.after (vacant : Vacant names x s) (sound : s.IsSound) (among : e.1 ∈ names)
    (apart : ∀ f ∈ x, f.1 ≠ e.1) (applied : applied? s e = some t) : Vacant names x t := by
  intro f inside uncontested b named' constrains' bounded set
  cases named : Directive.ofName? e.1 with
  | none =>
      rw [applied?_eq_some s named] at applied
      cases applied
      exact vacant f inside uncontested b named' constrains' bounded set
  | some a =>
      rw [applied?_eq s named] at applied
      obtain ⟨kind, kept⟩ := constrain?_leaves sound applied
      rw [kind] at constrains'
      rw [kept bounded fun constrains set' => ?_]
      · exact vacant f inside uncontested b named' constrains' bounded set
      have different : b ≠ a := by
        rintro rfl
        exact apart f inside ((Directive.name_of_ofName? named').symm.trans (Directive.name_of_ofName? named))
      have free := (compete_eq named' named).symm.trans (free_of_uncontested uncontested among)
      have competing : competes b a = true := by
        simp only [competes, Bool.and_eq_true, bne_iff_ne, beq_iff_eq, List.any_eq_true,
          List.contains_iff_mem]
        exact ⟨⟨different, constrains'.trans constrains.symm⟩, bounded, set, set'⟩
      exact Bool.false_ne_true (free.symm.trans competing)

/-- Bounds that do not compete are set where there are none yet, if one of them is uncontested. -/
theorem Vacant.counts_eq (vacant : Vacant names x s) (inside : e ∈ x) (inside' : f ∈ x)
    (among : ∀ e ∈ x, e.1 ∈ names) (named : Directive.ofName? e.1 = some a)
    (named' : Directive.ofName? f.1 = some b)
    (different : a ≠ b) (uncontested : isContested names e.1 = false)
    (constrains : target? a = s.target?)
    (constrains' : target? b = s.target?) (bounds : ends a ≠ []) (bounds' : ends b ≠ []) :
    s.counts = {} := by
  by_cases counts : target? a = some .text ∨ target? a = some .array ∨ target? a = some .map
  case neg =>
    -- Types of the other kinds have no counts to bound.
    rw [constrains] at counts
    cases s <;> first | rfl | simp [Shape.target?] at counts
  have same := constrains'.trans constrains.symm
  have free : competes a b = false :=
    (compete_eq named named').symm.trans (free_of_uncontested uncontested (among f inside'))
  have uncontested' : isContested names f.1 = false := by
    refine List.any_eq_false.2 fun other member competing => ?_
    cases named'' : Directive.ofName? other with
    | none => simp [compete, named', named''] at competing
    | some g =>
        rw [compete_eq named' named'', competes_comm] at competing
        have competing' := competes_of_bounds (constrains'.symm ▸ constrains ▸ counts) same.symm
          ((competes_comm b a).trans free) bounds' bounds competing
        rw [competes_comm, ← compete_eq named named'',
          free_of_uncontested uncontested member] at competing'
        cases competing'
  have unset := vacant e inside uncontested a named constrains
  have unset' := vacant f inside' uncontested' b named' constrains'
  have none (bounded : End) : s.counts.at? bounded = none := by
    rcases apart_ends same.symm different free bounds bounds' with ⟨lower, upper⟩ | ⟨upper, lower⟩
    · cases bounded with
      | lower => exact unset _ (by simp [lower])
      | upper => exact unset' _ (by simp [upper])
    · cases bounded with
      | lower => exact unset' _ (by simp [lower])
      | upper => exact unset _ (by simp [upper])
  have low := none .lower
  have high := none .upper
  cases counted : s.counts with
  | mk min max => simp_all [Counts.at?]

theorem applied?_comm (vacant : Vacant names x s) (sound : s.IsSound) (inside : e ∈ x)
    (inside' : f ∈ x)
    (among : ∀ e ∈ x, e.1 ∈ names) (apart : e.1 ≠ f.1)
    (uncontested : isContested names e.1 = false) :
    (applied? s e).bind (applied? · f) = (applied? s f).bind (applied? · e) := by
  cases named : Directive.ofName? e.1 with
  | none => simp only [applied?_eq_some _ named, Option.bind_some, Option.bind_fun_some]
  | some a =>
      cases named' : Directive.ofName? f.1 with
      | none => simp only [applied?_eq_some _ named', Option.bind_some, Option.bind_fun_some]
      | some b =>
          have different : a ≠ b := by
            rintro rfl
            exact apart ((Directive.name_of_ofName? named).symm.trans (Directive.name_of_ofName? named'))
          have free : competes a b = false :=
            (compete_eq named named').symm.trans (free_of_uncontested uncontested (among f inside'))
          simp only [applied?_eq _ named, applied?_eq _ named']
          exact commute different free sound
            (vacant.counts_eq inside inside' among named named' different uncontested)

/-- An extension can be applied before others if it is uncontested, or all of them are. -/
theorem foldlM_front {before after : List (Bytes × Value)}
    (vacant : Vacant names (before ++ e :: after) s)
    (sound : s.IsSound) (among : ∀ f ∈ before ++ e :: after, f.1 ∈ names)
    (distinct : ((before ++ e :: after).map (·.1)).Nodup)
    (uncontested : isContested names e.1 = false ∨ ∀ f ∈ before, isContested names f.1 = false) :
    (before ++ e :: after).foldlM applied? s = (e :: (before ++ after)).foldlM applied? s := by
  induction before generalizing s with
  | nil => rfl
  | cons f before ih =>
      obtain ⟨fresh, distinct⟩ := List.nodup_cons.1 distinct
      have first : f ∈ f :: before ++ e :: after := List.mem_cons_self
      have inside : e ∈ f :: before ++ e :: after := by simp
      have apart : f.1 ≠ e.1 := fun same => fresh (by simp [same])
      have swap : (applied? s f).bind (applied? · e) = (applied? s e).bind (applied? · f) := by
        rcases uncontested with alone | alone
        · exact (applied?_comm vacant sound inside first among apart.symm alone).symm
        · exact applied?_comm vacant sound first inside among apart (alone f List.mem_cons_self)
      calc (f :: before ++ e :: after).foldlM applied? s
          = (applied? s f).bind fun t => (before ++ e :: after).foldlM applied? t := rfl
        _ = (applied? s f).bind fun t => (applied? t e).bind
          fun t => (before ++ after).foldlM applied? t := by
            refine Option.bind_congr fun t applied => ?_
            have later : Vacant names (before ++ e :: after) t :=
              Vacant.after (fun g inside => vacant g (List.mem_cons_of_mem f inside)) sound
                (among f first)
                (fun g inside same => fresh (List.mem_map.2 ⟨g, inside, same⟩)) applied
            exact ih later (isSound_of_applied? sound applied) (fun g inside => among g (List.mem_cons_of_mem f inside))
              distinct (uncontested.imp_right fun alone g inside => alone g (List.mem_cons_of_mem f inside))
        _ = (applied? s e).bind fun t => (applied? t f).bind
          fun t => (before ++ after).foldlM applied? t := by
            rw [← Option.bind_assoc, swap, Option.bind_assoc]
        _ = (e :: (f :: before ++ after)).foldlM applied? s := rfl

/-- Extensions in another order, where the contested ones are in the same order, make the same of a
type. -/
theorem foldlM_perm (perm : x.Perm y) (vacant : Vacant names x s) (sound : s.IsSound)
    (among : ∀ e ∈ x, e.1 ∈ names) (distinct : (x.map (·.1)).Nodup)
    (order : (x.map (·.1)).filter (isContested names) = (y.map (·.1)).filter (isContested names)) :
    x.foldlM applied? s = y.foldlM applied? s := by
  induction y generalizing x s with
  | nil => rw [List.perm_nil.1 perm]
  | cons e y ih =>
      obtain ⟨before, after, rfl⟩ := List.mem_iff_append.1 (perm.mem_iff.2 List.mem_cons_self)
      have fresh : e.1 ∉ before.map (·.1) := fun inside => by
        rw [List.map_append, List.nodup_append] at distinct
        exact distinct.2.2 _ inside _ (by simp) rfl
      have keys : (e :: (before ++ after)).Perm (before ++ e :: after) := List.perm_middle.symm
      rw [List.map_append, List.map_cons, List.map_cons, List.filter_append] at order
      -- A contested extension that comes first in the new order is the first contested one of the
      -- old order.
      have none (contested : isContested names e.1 = true) :
          (before.map (·.1)).filter (isContested names) = [] := by
        rw [List.filter_cons_of_pos contested (l := y.map (·.1))] at order
        cases first : (before.map (·.1)).filter (isContested names) with
        | nil => rfl
        | cons name others =>
            rw [first, List.cons_append] at order
            have member : name ∈ before.map (·.1) :=
              (List.mem_filter.1 (first ▸ List.mem_cons_self)).1
            exact absurd ((List.cons.inj order).1 ▸ member) fresh
      have alone : isContested names e.1 = false ∨ ∀ f ∈ before, isContested names f.1 = false := by
        cases contested : isContested names e.1 with
        | false => exact .inl rfl
        | true =>
            exact .inr fun f inside => by
              simpa using List.filter_eq_nil_iff.1 (none contested) f.1 (List.mem_map_of_mem inside)
      obtain ⟨apart, distinct'⟩ := List.nodup_cons.1 ((keys.map (·.1)).nodup_iff.2 distinct)
      have remain {f : Bytes × Value} (inside : f ∈ before ++ after) : f ∈ before ++ e :: after :=
        keys.subset (List.mem_cons_of_mem e inside)
      rw [foldlM_front vacant sound among distinct alone, List.foldlM_cons, List.foldlM_cons]
      refine Option.bind_congr fun t applied => ih (keys.trans perm).cons_inv ?_ (isSound_of_applied? sound applied)
        (fun f inside => among f (remain inside)) distinct' ?_
      · exact Vacant.after (fun f inside => vacant f (remain inside)) sound (among e (by simp))
          (fun f inside same => apart (List.mem_map.2 ⟨f, inside, same⟩)) applied
      · rw [List.map_append, List.filter_append]
        cases contested : isContested names e.1 with
        | false =>
            rwa [List.filter_cons_of_neg (by simp [contested]),
              List.filter_cons_of_neg (by simp [contested])] at order
        | true =>
            rw [none contested, List.filter_cons_of_pos contested,
              List.filter_cons_of_pos contested] at order
            rw [none contested]
            exact (List.cons.inj order).2

/-- However the uncontested extensions of a declaration are ordered, they make the same of an
unconstrained type. -/
theorem toOption_applyAll_perm (perm : x.Perm y) (path path' : Path) (sound : s.IsSound)
    (unbounded : s.counts = {})
    (distinct : (x.map (·.1)).Nodup) (order : contested (x.map (·.1)) = contested (y.map (·.1))) :
    (applyAll path s x).toOption = (applyAll path' s y).toOption := by
  have same : isContested (y.map (·.1)) = isContested (x.map (·.1)) :=
    funext fun name => List.Perm.any_eq (f := compete name) (perm.map (·.1)).symm
  rw [contested, contested, same] at order
  rw [toOption_applyAll, toOption_applyAll]
  refine foldlM_perm perm (fun e inside _ a _ _ bounded _ => ?_) sound (fun e inside => List.mem_map_of_mem inside)
    distinct order
  rw [unbounded]
  cases bounded <;> rfl

theorem foldlM_of_applyAll {path : Path} (applied : applyAll path s x = .ok t) :
    x.foldlM applied? s = some t := by
  rw [← toOption_applyAll path, applied]
  rfl

/-- Constraints leave the kind of a type, and apply to it. -/
theorem applyAll_fits {path : Path} (sound : s.IsSound) (applied : applyAll path s x = .ok t) :
    t.target? = s.target? ∧
    ∀ e ∈ x, ∀ a, Directive.ofName? e.1 = some a → ∀ target, target? a = some target →
      s.target? = some target := by
  replace applied := foldlM_of_applyAll applied
  induction x generalizing s with
  | nil =>
      cases applied
      exact ⟨rfl, nofun⟩
  | cons e x ih =>
      obtain ⟨u, first, applied⟩ := Option.bind_eq_some_iff.1 applied
      obtain ⟨kind, rest⟩ := ih (isSound_of_applied? sound first) applied
      have step : u.target? = s.target? ∧ ∀ a, Directive.ofName? e.1 = some a → ∀ target,
          target? a = some target → s.target? = some target := by
        cases named : Directive.ofName? e.1 with
        | none =>
            rw [applied?_eq_some s named] at first
            cases first
            exact ⟨rfl, nofun⟩
        | some a =>
            rw [applied?_eq s named] at first
            refine ⟨(constrain?_leaves sound first).1, fun b same target constrains => ?_⟩
            obtain rfl := Option.some.inj same
            by_cases kind : s.target? = some target
            · exact kind
            · rw [constrain?_eq_none constrains kind] at first
              cases first
      rw [step.1] at kind rest
      exact ⟨kind, List.forall_mem_cons.2 ⟨step.2, rest⟩⟩

end Constraint

/-- Whether a type has nothing that a constraint changes. What constrains records and unions is read
with them. -/
def Shape.IsFixed {α : Type} (s : Shape α) : Prop :=
  s.target? = none ∨ s.target? = some .record ∨ s.target? = some .union

namespace Constraint

variable {α : Type} {s t : Shape α} {e : Bytes × Value} {x : List (Bytes × Value)}

theorem applied?_fixed (fixed : s.IsFixed) (applied : applied? s e = some t) : t = s := by
  cases named : Directive.ofName? e.1 with
  | none =>
      rw [applied?_eq_some s named] at applied
      exact (Option.some.inj applied).symm
  | some a =>
      rw [applied?_eq s named] at applied
      cases constrains : target? a with
      | none =>
          rw [constrain?_of_idle constrains] at applied
          exact (Option.some.inj applied).symm
      | some target =>
          by_cases kind : s.target? = some target
          case neg =>
            rw [constrain?_eq_none constrains kind] at applied
            cases applied
          rw [constrain?, constrains] at applied
          rcases fixed with none | record | union
          · cases none.symm.trans kind
          · obtain rfl := Option.some.inj (kind.symm.trans record)
            rw [if_pos kind] at applied
            exact (Option.some.inj applied).symm
          · obtain rfl := Option.some.inj (kind.symm.trans union)
            rw [if_pos kind] at applied
            exact (Option.some.inj applied).symm

theorem applyAll_fixed {path : Path} (fixed : s.IsFixed) (applied : applyAll path s x = .ok t) :
    t = s := by
  replace applied := foldlM_of_applyAll applied
  induction x with
  | nil => exact (Option.some.inj applied).symm
  | cons e x ih =>
      obtain ⟨u, first, further⟩ := Option.bind_eq_some_iff.1 applied
      obtain rfl := applied?_fixed fixed first
      exact ih further

end Constraint

end DocSchema
