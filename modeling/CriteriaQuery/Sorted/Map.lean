/-!
# Maps in key order

A finite map kept as the list of its entries in strictly ascending key order. The list is
determined by the look-ups, so two maps with the same look-ups are equal, and every
traversal is in key order. A set is a map to `Unit`.

## Implementation notes

The order on keys is a class argument; every use in this library is at `String`, ordered
by code points, or at a lexicographic pair of strings.
-/

namespace CriteriaQuery

/-- What the keys of a sorted map need: a decidable strict linear order. -/
class KeyOrder (κ : Type) extends LT κ where
  decidableLT : ∀ a b : κ, Decidable (a < b)
  decidableEq : ∀ a b : κ, Decidable (a = b)
  irrefl : ∀ a : κ, ¬ a < a
  trans : ∀ {a b c : κ}, a < b → b < c → a < c
  connected : ∀ {a b : κ}, ¬ a < b → a ≠ b → b < a

instance (priority := low) instDecidableKeyLT {κ : Type} [KeyOrder κ] (a b : κ) :
    Decidable (a < b) := KeyOrder.decidableLT a b
instance (priority := low) instDecidableKeyEq {κ : Type} [KeyOrder κ] : DecidableEq κ :=
  KeyOrder.decidableEq

instance : KeyOrder String where
  decidableLT := fun _ _ => inferInstance
  decidableEq := fun _ _ => inferInstance
  irrefl := String.lt_irrefl
  trans := String.lt_trans
  connected := fun {a b} h hne => by
    rcases Classical.em (b < a) with hlt | hge
    · exact hlt
    · exact absurd (String.le_antisymm (String.not_lt.mp hge) (String.not_lt.mp h)) hne

/-- A finite map as its entries in strictly ascending key order. -/
structure SortedMap (κ : Type) [KeyOrder κ] (α : Type) where
  entries : List (κ × α)
  sorted : entries.Pairwise (fun a b => a.1 < b.1)

namespace SortedMap

variable {κ α : Type} [KeyOrder κ]

instance [DecidableEq α] : DecidableEq (SortedMap κ α) := fun m n =>
  decidable_of_iff (m.entries = n.entries) (by cases m; cases n; simp)

/-- Two maps with the same entries are equal. -/
theorem ext_entries {m n : SortedMap κ α} (h : m.entries = n.entries) : m = n := by
  cases m; cases n; simp_all

/-- The map without entries. -/
def empty : SortedMap κ α := ⟨[], List.Pairwise.nil⟩

instance : EmptyCollection (SortedMap κ α) := ⟨empty⟩
instance : Inhabited (SortedMap κ α) := ⟨empty⟩

/-- The look-up in a list of entries. -/
def lookup (k : κ) : List (κ × α) → Option α
  | [] => none
  | (k', v) :: rest => if k = k' then some v else lookup k rest

/-- The value at a key. -/
def get? (m : SortedMap κ α) (k : κ) : Option α := lookup k m.entries

/-- Whether a key has a value. -/
def contains (m : SortedMap κ α) (k : κ) : Bool := (m.get? k).isSome

/-- The keys in ascending order. -/
def keys (m : SortedMap κ α) : List κ := m.entries.map Prod.fst

/-- Whether there are no entries. -/
def isEmpty (m : SortedMap κ α) : Bool := m.entries.isEmpty

/-- The number of entries. -/
def size (m : SortedMap κ α) : Nat := m.entries.length

/-- Puts a value at its key's place in an ascending list of entries. -/
def place (k : κ) (v : α) : List (κ × α) → List (κ × α)
  | [] => [(k, v)]
  | (k', v') :: rest =>
    if k < k' then (k, v) :: (k', v') :: rest
    else if k = k' then (k, v) :: rest
    else (k', v') :: place k v rest

theorem mem_place {k : κ} {v : α} {e : κ × α} {l : List (κ × α)} (h : e ∈ place k v l) :
    e = (k, v) ∨ e ∈ l := by
  induction l with
  | nil => simpa [place] using h
  | cons a rest ih =>
    simp only [place] at h
    split at h
    · simpa using h
    · split at h
      · simp only [List.mem_cons] at h ⊢
        exact h.imp_right Or.inr
      · simp only [List.mem_cons] at h ⊢
        rcases h with h | h
        · exact Or.inr (Or.inl h)
        · exact (ih h).imp_right Or.inr

theorem pairwise_place {k : κ} {v : α} {l : List (κ × α)}
    (h : l.Pairwise (fun a b => a.1 < b.1)) : (place k v l).Pairwise (fun a b => a.1 < b.1) := by
  induction l with
  | nil => simp [place]
  | cons a rest ih =>
    obtain ⟨k', v'⟩ := a
    obtain ⟨hhead, htail⟩ := List.pairwise_cons.mp h
    simp only [place]
    split
    · next hlt =>
      refine List.pairwise_cons.mpr ⟨fun e he => ?_, h⟩
      rcases List.mem_cons.mp he with rfl | he
      · exact hlt
      · exact KeyOrder.trans hlt (hhead e he)
    · next hge =>
      split
      · next heq =>
        subst heq
        exact List.pairwise_cons.mpr ⟨fun e he => hhead e he, htail⟩
      · next hne =>
        refine List.pairwise_cons.mpr ⟨fun e he => ?_, ih htail⟩
        rcases mem_place he with rfl | he
        · exact KeyOrder.connected hge hne
        · exact hhead e he

/-- Sets the value at a key. -/
def insert (m : SortedMap κ α) (k : κ) (v : α) : SortedMap κ α :=
  ⟨place k v m.entries, pairwise_place m.sorted⟩

/-- Removes a key and its value. -/
def erase (m : SortedMap κ α) (k : κ) : SortedMap κ α :=
  ⟨m.entries.filter (fun e => !decide (e.1 = k)), m.sorted.filter _⟩

/-- The map of a list of entries, of which the last for a key counts. -/
def ofList (l : List (κ × α)) : SortedMap κ α := l.foldl (fun m e => m.insert e.1 e.2) empty

theorem lookup_place {k k' : κ} {v : α} {l : List (κ × α)} :
    lookup k' (place k v l) = if k' = k then some v else lookup k' l := by
  induction l with
  | nil => simp [place, lookup]
  | cons a rest ih =>
    obtain ⟨k₁, v₁⟩ := a
    simp only [place]
    split
    · simp [lookup]
    · split
      · next heq => subst heq; by_cases h : k' = k <;> simp [lookup, h]
      · next hne =>
        simp only [lookup, ih]
        by_cases h : k' = k₁
        · subst h
          simp [Ne.symm hne]
        · simp [h]

/-- After setting a key, it has the value set, and the other keys have theirs. -/
@[simp] theorem get?_insert (m : SortedMap κ α) (k k' : κ) (v : α) :
    (m.insert k v).get? k' = if k' = k then some v else m.get? k' := lookup_place

@[simp] theorem get?_empty (k : κ) : (empty : SortedMap κ α).get? k = none := rfl

theorem lookup_filter {k k' : κ} {l : List (κ × α)} :
    lookup k' (l.filter (fun e => !decide (e.1 = k))) = if k' = k then none else lookup k' l := by
  induction l with
  | nil => simp [lookup]
  | cons a rest ih =>
    obtain ⟨k₁, v₁⟩ := a
    by_cases hk : k₁ = k
    · subst hk
      simp only [List.filter_cons, decide_true, Bool.not_true, Bool.false_eq_true, if_false,
        ih, lookup]
      by_cases h : k' = k₁ <;> simp [h]
    · by_cases h : k' = k₁
      · subst h; simp [hk, lookup]
      · simp [hk, lookup, h, ih]

/-- After removing a key, it has no value, and the other keys have theirs. -/
@[simp] theorem get?_erase (m : SortedMap κ α) (k k' : κ) :
    (m.erase k).get? k' = if k' = k then none else m.get? k' := lookup_filter

theorem lookup_eq_none_of_lt {k : κ} {l : List (κ × α)} (h : ∀ e ∈ l, k < e.1) :
    lookup k l = none := by
  induction l with
  | nil => rfl
  | cons a rest ih =>
    have hne : k ≠ a.1 := fun heq => KeyOrder.irrefl k (heq ▸ h a List.mem_cons_self)
    obtain ⟨k₁, v₁⟩ := a
    simp only [lookup, if_neg hne]
    exact ih fun e he => h e (List.mem_cons_of_mem _ he)

/-- An entry stands in the list exactly when its key has its value. -/
theorem mem_entries_iff {m : SortedMap κ α} {k : κ} {v : α} :
    (k, v) ∈ m.entries ↔ m.get? k = some v := by
  obtain ⟨l, hl⟩ := m
  simp only [get?]
  induction l with
  | nil => simp [lookup]
  | cons a rest ih =>
    obtain ⟨k₁, v₁⟩ := a
    obtain ⟨hhead, htail⟩ := List.pairwise_cons.mp hl
    by_cases h : k = k₁
    · subst h
      have hnot : (k, v) ∉ rest := fun hm => KeyOrder.irrefl k (hhead _ hm)
      simp [lookup, hnot, eq_comm]
    · simp [lookup, h, ih htail]

theorem mem_keys_iff {m : SortedMap κ α} {k : κ} : k ∈ m.keys ↔ ∃ v, m.get? k = some v := by
  simp only [keys, List.mem_map, Prod.exists, exists_and_right, exists_eq_right, mem_entries_iff]

theorem contains_iff_exists {m : SortedMap κ α} {k : κ} :
    m.contains k = true ↔ ∃ v, m.get? k = some v := by
  rw [contains, Option.isSome_iff_exists]

theorem entries_eq_of_lookup {l₁ l₂ : List (κ × α)}
    (h₁ : l₁.Pairwise (fun a b => a.1 < b.1)) (h₂ : l₂.Pairwise (fun a b => a.1 < b.1))
    (h : ∀ k, lookup k l₁ = lookup k l₂) : l₁ = l₂ := by
  induction l₁ generalizing l₂ with
  | nil =>
    cases l₂ with
    | nil => rfl
    | cons b rest => simpa [lookup] using h b.1
  | cons a rest₁ ih =>
    obtain ⟨ka, va⟩ := a
    obtain ⟨ha, hrest₁⟩ := List.pairwise_cons.mp h₁
    cases l₂ with
    | nil => simpa [lookup] using h ka
    | cons b rest₂ =>
      obtain ⟨kb, vb⟩ := b
      obtain ⟨hb, hrest₂⟩ := List.pairwise_cons.mp h₂
      have key : ka = kb := by
        rcases Classical.em (ka = kb) with heq | hne
        · exact heq
        · rcases Classical.em (ka < kb) with hlt | hge
          · have := h ka
            rw [lookup_eq_none_of_lt (l := (kb, vb) :: rest₂)] at this
            · simp [lookup] at this
            · intro e he
              rcases List.mem_cons.mp he with rfl | he
              · exact hlt
              · exact KeyOrder.trans hlt (hb e he)
          · have hlt := KeyOrder.connected hge hne
            have := h kb
            rw [lookup_eq_none_of_lt (l := (ka, va) :: rest₁)] at this
            · simp [lookup] at this
            · intro e he
              rcases List.mem_cons.mp he with rfl | he
              · exact hlt
              · exact KeyOrder.trans hlt (ha e he)
      subst key
      have hv : va = vb := by simpa [lookup] using h ka
      subst hv
      congr 1
      refine ih hrest₁ hrest₂ fun k => ?_
      rcases Classical.em (k = ka) with rfl | hne
      · rw [lookup_eq_none_of_lt (fun e he => ha e he), lookup_eq_none_of_lt (fun e he => hb e he)]
      · have := h k
        simpa [lookup, hne] using this

/-- Two maps with the same look-ups are equal. -/
theorem ext_get? {m n : SortedMap κ α} (h : ∀ k, m.get? k = n.get? k) : m = n :=
  ext_entries (entries_eq_of_lookup m.sorted n.sorted h)

end SortedMap

/-- A finite set in ascending order. -/
abbrev SortedSet (κ : Type) [KeyOrder κ] := SortedMap κ Unit

namespace SortedSet

variable {κ : Type} [KeyOrder κ]

/-- The members in ascending order. -/
def toList (s : SortedSet κ) : List κ := s.keys

/-- Adds a member. -/
def add (s : SortedSet κ) (k : κ) : SortedSet κ := SortedMap.insert s k ()

/-- Removes a member. -/
def remove (s : SortedSet κ) (k : κ) : SortedSet κ := SortedMap.erase s k

/-- The set of the members of a list. -/
def ofList (l : List κ) : SortedSet κ := l.foldl add SortedMap.empty

theorem contains_add (s : SortedSet κ) (k k' : κ) :
    SortedMap.contains (s.add k) k' = (decide (k' = k) || SortedMap.contains s k') := by
  by_cases h : k' = k <;> simp [SortedMap.contains, add, h]

theorem contains_remove (s : SortedSet κ) (k k' : κ) :
    SortedMap.contains (s.remove k) k' = (!decide (k' = k) && SortedMap.contains s k') := by
  by_cases h : k' = k <;> simp [SortedMap.contains, remove, h]

theorem contains_foldl_add (l : List κ) (s : SortedSet κ) (k : κ) :
    SortedMap.contains (l.foldl add s) k = true ↔ SortedMap.contains s k = true ∨ k ∈ l := by
  induction l generalizing s with
  | nil => simp
  | cons a l ih =>
    rw [List.foldl_cons, ih, contains_add, Bool.or_eq_true, decide_eq_true_eq, or_assoc,
      or_left_comm, List.mem_cons]

/-- The members of the set are those of the list. -/
theorem contains_ofList {l : List κ} {k : κ} :
    SortedMap.contains (ofList l) k = true ↔ k ∈ l := by
  rw [ofList, contains_foldl_add]
  simp [SortedMap.contains]

/-- A key is a member exactly when it stands in the list of members. -/
theorem mem_toList_iff {s : SortedSet κ} {k : κ} :
    k ∈ s.toList ↔ SortedMap.contains s k = true := by
  rw [toList, SortedMap.mem_keys_iff, SortedMap.contains_iff_exists]

end SortedSet

end CriteriaQuery
