import DocSchema.Proofs.Parts

set_option autoImplicit false

namespace DocSchema

def Site.Holds (s part : Site) : Prop :=
  part = s ∨ ∃ i, part.position = s.position ++ [i]

/-- Whether a choice for a value is a variant of the union, with the value or a part of it as
content. If a tag shares the map of the content, then the content is the value, and the union has
its tag inside. -/
structure Choice.Fits (u : UnionType) (s : Site) (c : Choice) : Prop where
  variant : c.variant ∈ u.variants
  target : s.Holds c.target
  tagged : ∀ tag ∈ c.tag, c.target = s ∧ u.representation = .internal tag

namespace Walk

open Walker (Ensures)

/-- Whether a walker chooses, if it does, a variant that fits. -/
def Picks (u : UnionType) (s : Site) (x : Walker (Option Choice)) : Prop :=
  Ensures (fun choice => ∀ c ∈ choice, c.Fits u s) x

variable {w : Walk} {u : UnionType} {s : Site}

theorem picks_refuse (path : Path) (m : Mismatch) : Picks u s (refuse path m) :=
  Ensures.report.bind fun _ _ => .pure (by simp)

theorem picks_choose {target : Site} {shared : Option Bytes} (near : s.Holds target)
    (tagged : ∀ tag ∈ shared, target = s ∧ u.representation = .internal tag) (name : Bytes)
    (tagPath : Path) :
    Picks u s (choose u name target tagPath shared) := by
  unfold choose
  cases found : u.find? name with
  | none => exact picks_refuse _ _
  | some v =>
      refine .pure ?_
      intro c chosen
      have same := Option.mem_some_iff.1 chosen
      subst same
      exact ⟨List.mem_of_find?_eq_some found, near, tagged⟩

theorem candidate?_ensures (v : Variant SchemaId) : Ensures (fun _ => True) (w.candidate? s v) := by
  apply (Walker.target_ensures w.schema v.schema s.path).bind
  intro target _
  have tried : Ensures (fun _ => True)
      (do return if ← Walker.accepts (w.check v.schema s) then some false else none) :=
    Ensures.accepts.bind fun _ _ => .pure trivial
  cases target with
  | undefined name => exact .pure trivial
  | node id node =>
      dsimp only
      split
      · exact .pure trivial
      · exact tried

theorem candidates_ensures (vs : List (Variant SchemaId)) :
    Ensures (fun _ => True) (w.candidates s vs) := by
  induction vs with
  | nil => exact .pure trivial
  | cons v vs ih => exact (candidate?_ensures v).bind fun _ _ => ih.bind fun _ _ => .pure trivial

theorem picks_infer {target : Site} (near : s.Holds target) : Picks u s (w.infer u target) := by
  apply (candidates_ensures u.variants).bind
  intro found _
  split
  · exact picks_choose near (by simp) _ _
  · split
    · exact picks_refuse _ _
    · exact picks_refuse _ _

theorem picks_untagged {target : Site} (near : s.Holds target) :
    Picks u s (w.untagged u target) := by
  unfold untagged
  split
  · exact picks_infer near
  · split <;> exact picks_refuse _ _

theorem picks_byExtension (extension : Option Bytes) : Picks u s (w.byExtension u s extension) := by
  cases extension with
  | none => exact picks_untagged (.inl rfl)
  | some name => exact picks_choose (.inl rfl) (by simp) _ _

theorem picks_agreed {chosen : Walker (Option Choice)} (picks : Picks u s chosen)
    (extension : Option Bytes) (name : Bytes) : Picks u s (agreed s extension name chosen) := by
  unfold agreed
  split
  · exact picks_refuse _ _
  · exact picks

theorem picks_withTag {field : Site} {next : Bytes → Walker (Option Choice)}
    (picks : ∀ name, Picks u s (next name)) : Picks u s (withTag field next) := by
  unfold withTag
  split
  · exact picks _
  · exact picks_refuse _ _

/-- What names a variant is an entry whose key is spelled so. -/
theorem namedEntries_mem {entries : List (Key × Site)} {i : Nat} {name : Bytes} {content : Site}
    (member : (i, name, content) ∈ namedEntries u entries) :
    ∃ inside : i < entries.length, entries[i].1.spelling? = some name ∧ entries[i].2 = content := by
  unfold namedEntries at member
  obtain ⟨⟨i, key, content⟩, listed, kept⟩ := List.mem_filterMap.1 member
  obtain ⟨j, inside, same⟩ := List.mem_mapIdx.1 listed
  obtain ⟨name, spelled, settled⟩ := Option.bind_eq_some_iff.1 kept
  split at settled
  · cases settled
    obtain ⟨rfl, entry⟩ := Prod.mk.inj same
    exact ⟨inside, by rw [entry, spelled], by rw [entry]⟩
  · cases settled

/-- An entry that names a variant is a part of the value. -/
theorem namedEntries_near {entries : List (Key × Site)} (found : s.entries? = some entries)
    {named : Nat × Bytes × Site} (member : named ∈ namedEntries u entries) :
    ∃ i, named.2.2.position = s.position ++ [i] := by
  obtain ⟨inside, -, same⟩ := namedEntries_mem member
  exact ⟨named.1, same ▸ Site.entry_position found named.1 inside⟩

theorem picks_external (extension : Option Bytes) : Picks u s (w.external u s extension) := by
  unfold external
  dsimp only
  split
  · split
    · exact picks_byExtension extension
    · exact picks_refuse _ _
  · next i name content named =>
    have near : ∃ j, content.position = s.position ++ [j] := by
      have member : (i, name, content) ∈ namedEntries u (s.entries?.getD []) := by
        rw [named]
        exact List.mem_singleton_self _
      cases found : s.entries? with
      | none =>
          rw [found] at member
          cases member
      | some entries =>
          rw [found] at member
          exact namedEntries_near found member
    refine picks_agreed ?_ extension name
    exact (unknownFields_ensures _ _).bind fun _ _ => picks_choose (.inr near) (by simp) _ _
  · exact picks_refuse _ _

theorem picks_internal {tag : Bytes} (inside : u.representation = .internal tag)
    (extension : Option Bytes) : Picks u s (w.internal u tag s extension) := by
  unfold internal
  split
  · exact picks_refuse _ _
  · split
    · exact picks_byExtension extension
    · have tagged : ∀ other ∈ some tag, s = s ∧ u.representation = .internal other := by
        intro other same
        exact ⟨rfl, Option.mem_some_iff.1 same ▸ inside⟩
      exact picks_withTag fun name => picks_agreed
        (picks_choose (.inl rfl) tagged _ _) extension name

theorem contentless_ensures (content name : Bytes) (tagPath : Path) :
    Ensures (fun _ => True) (w.contentless u content name s tagPath) := by
  unfold contentless
  split
  · exact .report
  · apply (Walker.follow_ensures _ _ _).bind
    intro target _
    cases target with
    | none => exact .pure trivial
    | some found => exact Check.expect_ensures _ _ _

theorem field?_near {name : Bytes} {part : Site} (found : s.field? name = some part) :
    ∃ i, part.position = s.position ++ [i] := by
  obtain ⟨entries, i, inside, mapped, spelled, position⟩ := Site.field?_position found
  exact ⟨i, position⟩

theorem picks_adjacentNamed (content name : Bytes) (tagPath : Path) :
    Picks u s (w.adjacentNamed u content name s tagPath) := by
  unfold adjacentNamed
  split
  · next part found => exact picks_choose (.inr (field?_near found)) (by simp) _ _
  · exact (contentless_ensures content name tagPath).bind fun _ _ => .pure (by simp)

theorem picks_adjacent (tag content : Bytes) (extension : Option Bytes) :
    Picks u s (w.adjacent u tag content s extension) := by
  unfold adjacent
  split
  · exact picks_refuse _ _
  · apply (unknownFields_ensures _ _).bind
    intro _ _
    split
    · exact picks_withTag fun name => picks_agreed (picks_adjacentNamed _ _ _) _ name
    · exact picks_adjacentNamed _ _ _
    · split
      · next part found => exact picks_untagged (.inr (field?_near found))
      · exact picks_refuse _ _

/-- A union chooses one of its variants, for the value or a part of it. -/
theorem picks_dispatch (w : Walk) (u : UnionType) (s : Site) : Picks u s (w.dispatch u s) := by
  unfold dispatch
  extract_lets named
  have picks (extension : Option Bytes) : Picks u s (named extension) := by
    unfold named
    split
    · exact picks_byExtension extension
    · exact picks_external extension
    · next tag inside => exact picks_internal inside extension
    · exact picks_adjacent _ _ extension
  split
  · exact picks none
  · split
    · exact picks _
    · exact picks_refuse _ _

/-- Where variants have to be named, the choice does not depend on the check of the level below. -/
theorem dispatch_explicit (schema : Schema) (check check' : SchemaId → Site → Check) (u : UnionType)
    (s : Site) :
    (Walk.mk schema false check).dispatch u s = (Walk.mk schema false check').dispatch u s :=
  rfl

end Walk

end DocSchema
