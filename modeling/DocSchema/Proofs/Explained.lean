import Mathlib.Logic.Relation
import DocSchema.Proofs.Log
import DocSchema.Proofs.References

set_option autoImplicit false

namespace DocSchema

open Relation (ReflTransGen TransGen)

namespace Schema

/-- The types that a validation against one of them may meet: the types below, and what references
name. -/
inductive Reaches (schema : Schema) (start : SchemaId) : SchemaId → Prop
  | start : Reaches schema start start
  | child {id child : SchemaId} {node : SchemaNode} (reached : Reaches schema start id)
      (found : schema.node? id = some node) (member : child ∈ node.shape.children) :
      Reaches schema start child
  | named {id target : SchemaId} {name : Bytes} {metadata : Metadata}
      (reached : Reaches schema start id)
      (found : schema.node? id = some ⟨.reference name, metadata⟩)
      (registered : schema.find? name = some target) : Reaches schema start target

/-- Whether a type is a reference to another one. -/
def Refers (schema : Schema) (id target : SchemaId) : Prop :=
  schema.hop id = .inr target

/-- Whether a flaw is one of the types that are reached. -/
def Shows (schema : Schema) (start : SchemaId) : Flaw → Prop
  | .missingNode => ∃ id, schema.Reaches start id ∧ schema.contains id = false
  | .missingTarget name => ∃ id, schema.Reaches start id ∧ schema.find? name = some id ∧
      schema.contains id = false
  | .unresolved _ => False
  | .cycle name => ∃ id metadata, schema.Reaches start id ∧
      schema.node? id = some ⟨.reference name, metadata⟩ ∧ TransGen schema.Refers id id
  | .invalidPattern p => ∃ id metadata length language, schema.Reaches start id ∧
      schema.node? id = some ⟨.text length (some p) language, metadata⟩ ∧ Pattern.compile? p = none

/-- Whether a type that is reached refers to a name that is not registered. -/
def Lacks (schema : Schema) (start : SchemaId) (name : Bytes) : Prop :=
  ∃ id metadata, schema.Reaches start id ∧ schema.node? id = some ⟨.reference name, metadata⟩ ∧
    schema.find? name = none

/-- Whether the types that are reached answer for a mismatch: for the name that is not registered,
and for the literal that is expected. -/
def Answers (schema : Schema) (start : SchemaId) : Mismatch → Prop
  | .undefinedType name => schema.Lacks start name
  | .wrongLiteral expected => ∃ id metadata, schema.Reaches start id ∧
      schema.node? id = some ⟨.literal expected, metadata⟩
  | _ => True

variable {schema : Schema} {start id target : SchemaId}

theorem Reaches.refers (reached : schema.Reaches start id) (refers : schema.Refers id target) :
    schema.Reaches start target := by
  obtain ⟨name, metadata, found, registered, -⟩ := hop_eq_inr.1 refers
  exact reached.named found registered

theorem Reaches.refersAll (reached : schema.Reaches start id)
    (refers : ReflTransGen schema.Refers id target) : schema.Reaches start target := by
  induction refers with
  | refl => exact reached
  | tail _ step ih => exact ih.refers step

/-- How the search for the end of the references from a type comes to its result. -/
inductive Ends (schema : Schema) (id : SchemaId) : Resolution → Prop
  | found {target : SchemaId} {node : SchemaNode} (refers : ReflTransGen schema.Refers id target)
      (found : schema.node? target = some node) (solid : ∀ name, node.shape ≠ .reference name) :
      Ends schema id (.found target node)
  | dangling {last : SchemaId} {name : Bytes} {metadata : Metadata}
      (refers : ReflTransGen schema.Refers id last)
      (found : schema.node? last = some ⟨.reference name, metadata⟩)
      (unregistered : schema.find? name = none) : Ends schema id (.dangling name)
  | cyclic {last : SchemaId} {name : Bytes} {metadata : Metadata}
      (refers : ReflTransGen schema.Refers id last)
      (found : schema.node? last = some ⟨.reference name, metadata⟩)
      (again : TransGen schema.Refers last last) : Ends schema id (.cyclic name)
  | missing (outside : schema.contains id = false) : Ends schema id .missing
  | missingTarget {last target : SchemaId} {name : Bytes} {metadata : Metadata}
      (refers : ReflTransGen schema.Refers id last)
      (found : schema.node? last = some ⟨.reference name, metadata⟩)
      (registered : schema.find? name = some target) (outside : schema.contains target = false) :
      Ends schema id (.missingTarget name)

/-- Where a search has been, the type that it is at was reached from. So a search that comes back is
in a cycle. -/
theorem follow_cyclic {name : Bytes} (fuel : Nat) (visited : List SchemaId)
    (trail : ∀ x ∈ visited, TransGen schema.Refers x id)
    (cyclic : schema.follow fuel visited id = .cyclic name) :
    ∃ last metadata, ReflTransGen schema.Refers id last ∧
      schema.node? last = some ⟨.reference name, metadata⟩ ∧ TransGen schema.Refers last last := by
  induction fuel generalizing visited id with
  | zero => cases cyclic
  | succ fuel ih =>
      by_cases fresh : id ∈ visited
      · unfold follow at cyclic
        split at cyclic
        · cases cyclic
        · next other metadata found =>
          rw [if_pos fresh] at cyclic
          cases cyclic
          exact ⟨id, metadata, .refl, found, trail id fresh⟩
        · cases cyclic
      · rw [follow_succ fuel visited fresh] at cyclic
        cases step : schema.hop id with
        | inl o =>
            rw [step] at cyclic
            exact absurd cyclic (not_cyclic_of_hop step name)
        | inr target =>
            rw [step] at cyclic
            have further : ∀ x ∈ id :: visited, TransGen schema.Refers x target :=
              List.forall_mem_cons.2 ⟨.single step, fun x member => (trail x member).tail step⟩
            obtain ⟨last, metadata, refers, loop⟩ := ih (id :: visited) further cyclic
            exact ⟨last, metadata, .head step refers, loop⟩

theorem Ends.of_refers {o : Resolution} (refers : schema.Refers id target)
    (ends : schema.Ends target o) : schema.Ends id o := by
  cases ends with
  | found further found solid => exact .found (.head refers further) found solid
  | dangling further found unregistered => exact .dangling (.head refers further) found unregistered
  | cyclic further found again => exact .cyclic (.head refers further) found again
  | missing outside => simp [(contains_of_hop refers).2] at outside
  | missingTarget further found registered outside =>
      exact .missingTarget (.head refers further) found registered outside

theorem Ends.of_hop {o : Resolution} (last : schema.hop id = .inl o) : schema.Ends id o := by
  unfold hop at last
  split at last
  · next absent =>
    cases last
    refine .missing ?_
    cases inside : schema.contains id with
    | false => rfl
    | true =>
        obtain ⟨node, found⟩ := contains_iff.1 inside
        cases absent.symm.trans found
  · next name metadata found =>
    split at last
    · next unregistered =>
      cases last
      exact .dangling .refl found unregistered
    · next target registered =>
      split at last
      · cases last
      · next outside =>
        cases last
        exact .missingTarget .refl found registered (Bool.eq_false_iff.2 outside)
  · next node solid found =>
    cases last
    refine .found .refl found fun name same => ?_
    obtain ⟨shape, metadata⟩ := node
    exact solid name metadata (by rw [← same])

theorem resolve_ends (schema : Schema) (id : SchemaId) : schema.Ends id (schema.resolve id) := by
  rcases schema.resolve_cases id with ⟨ids, chain⟩ | ⟨⟨name, cyclic⟩, -⟩
  · generalize schema.resolve id = o at chain
    induction chain with
    | last ends => exact .of_hop ends
    | step leads rest ih => exact .of_refers leads ih
  · rw [cyclic]
    obtain ⟨last, metadata, refers, found, again⟩ :=
      follow_cyclic (schema.size + 1) [] (by simp) cyclic
    exact .cyclic refers found again

end Schema

/-- Whether what was found is explained by the types that are reached: names that are reported as
undefined, and variants that were selected. -/
structure Findings.Explained (schema : Schema) (start : SchemaId) (f : Findings) : Prop where
  undefined : ∀ e ∈ f.errors, ∀ name, e.mismatch = .undefinedType name → schema.Lacks start name
  selected : ∀ c ∈ f.selections, schema.Reaches start c.variant

namespace Findings.Explained

variable {schema : Schema} {start : SchemaId} {f g : Findings}

theorem empty : ({} : Findings).Explained schema start :=
  ⟨by simp, by simp⟩

theorem append (first : f.Explained schema start) (second : g.Explained schema start) :
    (f ++ g).Explained schema start where
  undefined e member := by
    rcases List.mem_append.1 member with before | after
    · exact first.undefined e before
    · exact second.undefined e after
  selected c member := by
    rcases List.mem_append.1 member with before | after
    · exact first.selected c before
    · exact second.selected c after

theorem error {path : Path} {m : Mismatch} {isIncomplete : Bool}
    (answered : schema.Answers start m) :
    Findings.Explained schema start { errors := [⟨path, m⟩], isIncomplete } where
  undefined e member name same := by
    rw [List.mem_singleton.1 member] at same
    cases same
    exact answered
  selected := by simp

end Findings.Explained

namespace Walker

variable {schema : Schema} {start : SchemaId} {α β : Type}

/-- Whether a walker fails only for flaws that the schema shows, and otherwise finds what the schema
explains and gives a result of a kind. In either case the schema answers for what is put into
words. -/
structure Explained (schema : Schema) (start : SchemaId) (post : α → Prop) (x : Walker α) :
    Prop where
  failed : ∀ e, x.log = .error e → schema.Shows start e.flaw
  found : ∀ a f, x.log = .ok (a, f) → post a ∧ f.Explained schema start
  answered : ∀ m ∈ x.worded (), schema.Answers start m

namespace Explained

variable {post : α → Prop} {next : β → Prop} {x : Walker α}

theorem of_log {a : α} {f : Findings} (logged : x.log = .ok (a, f)) (holds : post a)
    (explained : f.Explained schema start) (answered : ∀ m ∈ x.worded (), schema.Answers start m) :
    Explained schema start post x where
  failed e other := by cases logged.symm.trans other
  found b g other := by
    cases logged.symm.trans other
    exact ⟨holds, explained⟩
  answered := answered

theorem pure {a : α} (holds : post a) : Explained schema start post (Pure.pure a) :=
  .of_log rfl holds .empty (by simp)

theorem report {path : Path} {m : Mismatch} (answered : schema.Answers start m) :
    Explained schema start (fun _ => True) (Walker.report path m) :=
  .of_log rfl trivial (.error answered) (by simpa using answered)

theorem reportMissing {path : Path} :
    Explained schema start (fun _ => True) (Walker.reportMissing path) :=
  .of_log rfl trivial (.error trivial) (by simp [Schema.Answers])

theorem warn {path : Path} {w : Warning} :
    Explained schema start (fun _ => True) (Walker.warn path w) :=
  .of_log rfl trivial ⟨by simp, by simp⟩ (by simp)

theorem expect {holds : Bool} {path : Path} {m : Mismatch} (answered : schema.Answers start m) :
    Explained schema start (fun _ => True) (Check.expect holds path m) := by
  cases holds
  · exact .report answered
  · exact .pure trivial

theorem abort {e : Failure} (shown : schema.Shows start e.flaw) :
    Explained schema start post (Walker.abort e) where
  failed e' logged := by
    cases logged
    exact shown
  found a f logged := by cases logged
  answered := by simp

theorem select {c : Selection} (reached : schema.Reaches start c.variant) :
    Explained schema start (fun _ => True) (Walker.select c) :=
  .of_log rfl trivial ⟨by simp, by simpa using reached⟩ (by simp)

theorem bind {h : α → Walker β} (first : Explained schema start post x)
    (further : ∀ a, post a → Explained schema start next (h a)) :
    Explained schema start next (x >>= h) where
  failed e logged := by
    rcases bind_error logged with failed | ⟨a, f, found, failed⟩
    · exact first.failed e failed
    · exact (further a (first.found a f found).1).failed e failed
  found b f logged := by
    obtain ⟨a, before, after, found, rest, rfl⟩ := bind_log logged
    obtain ⟨holds, explained⟩ := first.found a before found
    obtain ⟨holds', explained'⟩ := (further a holds).found b after rest
    exact ⟨holds', explained.append explained'⟩
  answered m member := by
    cases logged : x.log with
    | error e => exact first.answered m (worded_bind_error logged ▸ member)
    | ok found =>
        rw [worded_bind_ok logged] at member
        rcases List.mem_append.1 member with before | after
        · exact first.answered m before
        · exact (further found.1 (first.found found.1 found.2 logged).1).answered m after

theorem forM {items : List β} {h : β → Walker Unit}
    (each : ∀ b ∈ items, Explained schema start (fun _ => True) (h b)) :
    Explained schema start (fun _ => True) (items.forM h) := by
  induction items with
  | nil => exact .pure trivial
  | cons b items ih =>
      exact (each b List.mem_cons_self).bind fun _ _ =>
        ih fun c member => each c (List.mem_cons_of_mem b member)

theorem accepts {x : Walker Unit} (explained : Explained schema start (fun _ => True) x) :
    Explained schema start (fun _ => True) x.accepts where
  failed e failed := by
    cases logged : x.log with
    | error e' =>
        cases (accepts_error logged).symm.trans failed
        exact explained.failed e logged
    | ok found => cases (accepts_ok logged).symm.trans failed
  found b f found := by
    cases logged : x.log with
    | error e => cases (accepts_error logged).symm.trans found
    | ok r =>
        cases (accepts_ok logged).symm.trans found
        exact ⟨trivial, .empty⟩
  answered := by simpa using explained.answered

end Explained

end Walker

end DocSchema
