import Mathlib.Data.List.Basic
import DocSchema.Json.Compact

set_option autoImplicit false

namespace DocSchema

variable {α β : Type}

theorem isSome_mapM {f : α → Option β} {items : List α} :
    (items.mapM f).isSome ↔ ∀ a ∈ items, (f a).isSome := by
  induction items with
  | nil => simp
  | cons a items ih =>
      rw [List.mapM_cons, List.forall_mem_cons, ← ih]
      cases f a <;> cases items.mapM f <;> simp

namespace Dictionary

variable {items : List (Bytes × α)}

theorem mem_insert {key : Bytes} {a : α} {d : Dictionary α} {item : Bytes × α}
    (member : item ∈ insert key a d) :
    item = (key, a) ∨ item ∈ d := by
  induction d with
  | nil => exact .inl (List.mem_singleton.1 member)
  | cons first rest ih =>
      rw [insert] at member
      split at member
      · exact (List.mem_cons.1 member).imp_right (List.mem_cons_of_mem first)
      · split at member
        · exact List.mem_cons.1 member
        · rcases List.mem_cons.1 member with rfl | later
          · exact .inr List.mem_cons_self
          · exact (ih later).imp_right (List.mem_cons_of_mem first)

/-- A dictionary holds no other items than those that it was made of. -/
theorem mem_ofList {item : Bytes × α} (member : item ∈ ofList items) : item ∈ items := by
  have step (d : Dictionary α) (items : List (Bytes × α))
      (member : item ∈ items.foldl (fun d item => insert item.1 item.2 d) d) :
      item ∈ d ∨ item ∈ items := by
    induction items generalizing d with
    | nil => exact .inl member
    | cons first rest ih =>
        rcases ih _ member with inserted | later
        · rcases mem_insert inserted with rfl | earlier
          · exact .inr List.mem_cons_self
          · exact .inl earlier
        · exact .inr (List.mem_cons_of_mem first later)
  exact (step [] items member).resolve_left List.not_mem_nil

/-- Items in the order of their keys, one for each key, are a dictionary already. -/
theorem ofList_sorted (sorted : items.Pairwise fun a b => a.1 < b.1) : ofList items = items := by
  have last (item : Bytes × α) (d : Dictionary α) (behind : ∀ a ∈ d, a.1 < item.1) :
      insert item.1 item.2 d = d ++ [item] := by
    induction d with
    | nil => rfl
    | cons first rest ih =>
        have less : first.1 < item.1 := behind first List.mem_cons_self
        have apart : item.1 ≠ first.1 := fun equal => List.lt_irrefl _ (equal ▸ less)
        rw [insert, if_neg apart, if_neg (List.lt_asymm less),
          ih fun a inside => behind a (List.mem_cons_of_mem first inside)]
        rfl
  have step (done items : List (Bytes × α))
      (sorted : (done ++ items).Pairwise fun a b => a.1 < b.1) :
      items.foldl (fun d item => insert item.1 item.2 d) done = done ++ items := by
    induction items generalizing done with
    | nil => exact (List.append_nil done).symm
    | cons item items ih =>
        rw [List.append_cons] at sorted ⊢
        have behind := (List.pairwise_append.1 (List.pairwise_append.1 sorted).1).2.2
        rw [List.foldl_cons, last item done fun a inside => behind a inside item List.mem_cons_self]
        exact ih _ sorted
  exact step [] items sorted

end Dictionary

namespace Json

theorem compactItems_eq (items : List Json) : compactItems items = items.map compact := by
  induction items with
  | nil => rfl
  | cons j rest ih => rw [compactItems, ih, List.map_cons]

theorem compactMembers_eq (members : List (Bytes × Json)) :
    compactMembers members = members.map (Prod.map id compact) := by
  induction members with
  | nil => rfl
  | cons m rest ih => rw [compactMembers, ih, List.map_cons, Prod.map, id]

theorem isSome_quote? {s : Bytes} : (quote? s).isSome ↔ s.IsUtf8 := by
  unfold quote?
  split <;> simp_all

theorem isSome_member? {m : Bytes × Option Bytes} :
    (member? m).isSome ↔ m.1.IsUtf8 ∧ m.2.isSome := by
  rw [← isSome_quote?, member?]
  cases quote? m.1 <;> cases m.2 <;> simp

theorem isSome_array {items : List Json} :
    (compact (.array items)).isSome ↔ ∀ j ∈ items, (compact j).isSome := by
  rw [compact, compactItems_eq, Option.isSome_map, isSome_mapM, List.forall_mem_map]
  rfl

/-- An object in order is written if all of its keys and values are. -/
theorem isSome_object {members : List (Bytes × Json)}
    (order : members.Pairwise fun a b => a.1 < b.1) :
    (compact (.object members)).isSome ↔ ∀ m ∈ members, m.1.IsUtf8 ∧ (compact m.2).isSome := by
  have order' : (members.map (Prod.map id compact)).Pairwise fun a b => a.1 < b.1 :=
    List.pairwise_map.2 order
  rw [compact, compactMembers_eq, Dictionary.ofList_sorted order', Option.isSome_map, isSome_mapM,
    List.forall_mem_map]
  simp only [isSome_member?, Prod.map, id]

/-- The writer without blanks has the laws. -/
theorem compact_isLawful : Writer.IsLawful compact where
  number n small := by
    have number : (Int64.ofNat n.toNat).toInt = n.toNat := Int64.toInt_ofNat_of_lt small
    rw [compact, compact, number, Bytes.ofInt, if_neg (by omega), Int.natAbs_natCast]
  array alike := by rw [compact, compact, compactItems_eq, compactItems_eq, alike]
  object alike := by rw [compact, compact, compactMembers_eq, compactMembers_eq, alike]
  written encoded := by
    induction encoded with
    | string encoded => exact isSome_quote?.2 encoded
    | array each ih => exact isSome_array.2 ih
    | @object members keys each ih =>
        rw [compact, compactMembers_eq, Option.isSome_map, isSome_mapM]
        intro m member
        obtain ⟨m, listed, rfl⟩ := List.mem_map.1 (Dictionary.mem_ofList member)
        exact isSome_member?.2 ⟨keys m listed, ih m listed⟩
    | _ => rfl
  encoded sorted written := by
    induction sorted with
    | string s => exact .string (isSome_quote?.1 written)
    | array each ih => exact .array fun j member => ih j member (isSome_array.1 written j member)
    | object order each ih =>
        have parts := (isSome_object order).1 written
        exact .object (fun m member => (parts m member).1)
          fun m member => ih m member (parts m member).2
    | _ => constructor

/-- Nothing is written of a string that is not UTF-8, wherever it stands. -/
example : compact (.array [.null, .object [("a", .string [0xff])]]) = none := by
  decide

end Json

end DocSchema
