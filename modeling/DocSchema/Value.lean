import DocSchema.Node

set_option autoImplicit false

namespace DocSchema

inductive Value where
  | node (content : Content Value) (extensions : List (Bytes × Value))

namespace Value

def content : Value → Content Value
  | .node c _ => c

def extensions : Value → List (Bytes × Value)
  | .node _ x => x

def root (v : Value) : Node Value :=
  ⟨v.content, v.extensions⟩

def of (c : Content Value) : Value :=
  .node c []

/-- The value stored under the extension `$name` of the root. -/
def extension? (name : Bytes) (v : Value) : Option Value :=
  v.root.extension? name

def text? (v : Value) : Option Text :=
  v.content.primitive?.bind (·.text?)

def int? (v : Value) : Option Int64 :=
  v.content.primitive?.bind (·.int?)

def bool? (v : Value) : Option Bool :=
  v.content.primitive?.bind (·.bool?)

def number? (v : Value) : Option Number :=
  v.content.primitive?.bind (·.number?)

/-- The value without the extensions of its root. -/
def bare (v : Value) : Value :=
  .node v.content []

mutual

def size : Value → Nat
  | .node c x => 1 + sizeContent c + sizeItems x

def sizeContent : Content Value → Nat
  | .hole => 0
  | .primitive _ => 0
  | .map es => sizeEntries es
  | .array vs => sizeList vs
  | .tuple vs => sizeList vs

def sizeEntries : List (Key × Value) → Nat
  | [] => 0
  | (_, v) :: es => v.size + sizeEntries es

def sizeList : List Value → Nat
  | [] => 0
  | v :: vs => v.size + sizeList vs

def sizeItems : List (Bytes × Value) → Nat
  | [] => 0
  | (_, v) :: x => v.size + sizeItems x

end

theorem size_pos (v : Value) : 0 < v.size := by
  cases v
  simp only [size]
  omega

theorem size_le_sizeEntries {k : Key} {v : Value} {es : List (Key × Value)} (h : (k, v) ∈ es) :
    v.size ≤ sizeEntries es := by
  induction es with
  | nil => simp at h
  | cons e es ih =>
    obtain ⟨k', v'⟩ := e
    simp only [List.mem_cons, Prod.mk.injEq] at h
    simp only [sizeEntries]
    rcases h with ⟨-, rfl⟩ | h
    · omega
    · have := ih h
      omega

theorem size_le_sizeList {v : Value} {vs : List Value} (h : v ∈ vs) : v.size ≤ sizeList vs := by
  induction vs with
  | nil => simp at h
  | cons w vs ih =>
    simp only [List.mem_cons] at h
    simp only [sizeList]
    rcases h with rfl | h
    · omega
    · have := ih h
      omega

theorem size_le_sizeItems {name : Bytes} {v : Value} {x : List (Bytes × Value)}
    (h : (name, v) ∈ x) : v.size ≤ sizeItems x := by
  induction x with
  | nil => simp at h
  | cons e x ih =>
    obtain ⟨k', v'⟩ := e
    simp only [List.mem_cons, Prod.mk.injEq] at h
    simp only [sizeItems]
    rcases h with ⟨-, rfl⟩ | h
    · omega
    · have := ih h
      omega

theorem size_le_sizeContent {v : Value} {c : Content Value} (h : v ∈ c.parts) :
    v.size ≤ sizeContent c := by
  cases c with
  | hole => simp [Content.parts] at h
  | primitive p => simp [Content.parts] at h
  | map es =>
    simp only [Content.parts, List.mem_map] at h
    obtain ⟨⟨k, w⟩, hm, rfl⟩ := h
    exact size_le_sizeEntries hm
  | array vs => exact size_le_sizeList h
  | tuple vs => exact size_le_sizeList h

/-- A part is smaller than the whole. -/
theorem size_lt_of_mem_parts {v w : Value} (h : v ∈ w.root.parts) : v.size < w.size := by
  obtain ⟨c, x⟩ := w
  simp only [Node.parts, root, content, extensions, List.mem_append, List.mem_map] at h
  simp only [size]
  rcases h with h | ⟨⟨name, w⟩, hm, rfl⟩
  · have := size_le_sizeContent h
    omega
  · have := size_le_sizeItems hm
    dsimp only
    omega

end Value

end DocSchema
