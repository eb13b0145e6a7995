/-!
# First occurrences

The members of a list, each where its key stands first.
-/

namespace CriteriaQuery

variable {α κ : Type} [DecidableEq κ]

/-- The members whose keys are new, given the keys seen before. -/
def distinctAfter (key : α → κ) : List κ → List α → List α
  | _, [] => []
  | seen, a :: as =>
    if key a ∈ seen then distinctAfter key seen as
    else a :: distinctAfter key (key a :: seen) as

/-- The members of a list, each where its key stands first. -/
def distinctBy (key : α → κ) (as : List α) : List α := distinctAfter key [] as

/-- The members of a list, each where it stands first. -/
def distinct (ks : List κ) : List κ := distinctBy id ks

theorem distinctAfter_sublist (key : α → κ) (seen : List κ) (as : List α) :
    (distinctAfter key seen as).Sublist as := by
  induction as generalizing seen with
  | nil => exact List.Sublist.slnil
  | cons a as ih =>
    rw [distinctAfter]
    split
    · exact (ih seen).cons a
    · exact (ih _).cons_cons a

/-- The keys are those of the list that were not seen before. -/
theorem mem_map_distinctAfter_iff {key : α → κ} {seen : List κ} {as : List α} {k : κ} :
    k ∈ (distinctAfter key seen as).map key ↔ k ∈ as.map key ∧ k ∉ seen := by
  induction as generalizing seen with
  | nil => simp [distinctAfter]
  | cons a as ih =>
    rw [distinctAfter, List.map_cons, List.mem_cons]
    split
    · next h =>
      rw [ih]
      constructor
      · exact fun ⟨hk, hn⟩ => ⟨Or.inr hk, hn⟩
      · rintro ⟨rfl | hk, hn⟩
        · exact absurd h hn
        · exact ⟨hk, hn⟩
    · next h =>
      rw [List.map_cons, List.mem_cons, ih, List.mem_cons]
      constructor
      · rintro (rfl | ⟨hk, hn⟩)
        · exact ⟨Or.inl rfl, h⟩
        · exact ⟨Or.inr hk, fun hs => hn (Or.inr hs)⟩
      · rintro ⟨rfl | hk, hn⟩
        · exact Or.inl rfl
        · rcases Classical.em (k = key a) with rfl | hne
          · exact Or.inl rfl
          · exact Or.inr ⟨hk, fun hs => hs.elim hne hn⟩

theorem nodup_map_distinctAfter (key : α → κ) (seen : List κ) (as : List α) :
    ((distinctAfter key seen as).map key).Nodup := by
  induction as generalizing seen with
  | nil => simp [distinctAfter]
  | cons a as ih =>
    rw [distinctAfter]
    split
    · exact ih seen
    · rw [List.map_cons, List.nodup_cons]
      exact ⟨fun hm => (mem_map_distinctAfter_iff.mp hm).2 List.mem_cons_self, ih _⟩

/-- The same keys stand in the list. -/
theorem mem_map_distinctBy_iff {key : α → κ} {as : List α} {k : κ} :
    k ∈ (distinctBy key as).map key ↔ k ∈ as.map key := by
  simp [distinctBy, mem_map_distinctAfter_iff]

/-- No key stands twice in the list. -/
theorem nodup_map_distinctBy (key : α → κ) (as : List α) : ((distinctBy key as).map key).Nodup :=
  nodup_map_distinctAfter key [] as

theorem mem_of_mem_distinctBy {key : α → κ} {as : List α} {a : α} (h : a ∈ distinctBy key as) :
    a ∈ as :=
  (distinctAfter_sublist key [] as).mem h

/-- The same members stand in the list. -/
@[simp] theorem mem_distinct_iff {ks : List κ} {k : κ} : k ∈ distinct ks ↔ k ∈ ks := by
  have h : k ∈ (distinctBy id ks).map id ↔ k ∈ ks.map id := mem_map_distinctBy_iff
  simpa [distinct] using h

/-- No member stands twice in the list. -/
theorem nodup_distinct (ks : List κ) : (distinct ks).Nodup := by
  simpa [distinct] using nodup_map_distinctBy id ks

end CriteriaQuery
