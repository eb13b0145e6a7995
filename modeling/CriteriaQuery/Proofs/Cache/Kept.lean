import CriteriaQuery.Proofs.Cache.Recency

/-!
# Values that are kept

Between calls a key has the value that the list of the last used keys has for it. An invalidation
takes away the values of matching keys and leaves those of all other keys. Every value that is kept
was made by the first visit that it was the answer to.

## Implementation notes

Values are told apart by their serial numbers, which are below the count of values made so far.
-/

namespace CriteriaQuery

variable {κ σ ε : Type}

/-! ### The values of keys -/

namespace Cache

variable [DecidableEq κ] {c c' : Cache κ σ} {l : Recency κ σ} {matching : κ → Bool}

/-- Whoever looks for a key finds its value. -/
theorem Free.get?_eq (hf : c.Free) (hon : c.policy.enabled = true) (key : κ) :
    (c.get? key).map Prod.fst = some (c.content? key) := by
  rw [get?, if_pos hon, find?, content?]
  cases c.entry? key with
  | none => rfl
  | some e =>
      have hheld : (c.hold e.slot).Free := fun i => locked_hold.trans (hf i)
      simp [hheld.lock_eq]

namespace Refines

/-- The values of keys are those in the list. -/
theorem mem_entries_iff (h : c.Refines [] l) {key : κ} {m : Made σ} :
    (key, some m) ∈ l.entries ↔ c.content? key = some m := by
  obtain ⟨order, hin, hview⟩ := h.order
  rw [← hview]
  constructor
  · intro hmem
    obtain ⟨e, he, hsame⟩ := List.mem_map.mp hmem
    obtain ⟨rfl, hcontent⟩ := Prod.mk.inj hsame
    have hplace : (e.1, e.2.slot) ∈ c.places := List.mem_map_of_mem (hin.perm.mem_iff.mp he)
    rw [h.sound.content?_eq hplace, hcontent]
  · intro hcontent
    obtain ⟨e, hentry, hslot⟩ := Option.bind_eq_some_iff.mp hcontent
    have he : (key, e) ∈ order := hin.perm.mem_iff.mpr (mem_entries_of_entry hentry)
    exact List.mem_map.mpr ⟨(key, e), he, by rw [view, hslot]⟩

/-- Matching keys lose their values, and the others keep theirs. -/
theorem content?_remove (h : c.Refines [] l) (h' : c'.Refines [] (l.remove matching)) (key : κ) :
    c'.content? key = if matching key then none else c.content? key := by
  ext m
  rw [← h'.mem_entries_iff, Recency.remove, List.mem_filter, h.mem_entries_iff]
  cases matching key <;> simp

end Refines

end Cache

/-! ### The visits that make values -/

/-- The visit of a position made the value of a key: the value is the answer to it, and to none
before it. -/
structure Visit.Makes (visits : List (Visit κ σ ε)) (answers : List (Answer σ ε)) (i : Nat)
    (key : κ) (m : Made σ) : Prop where
  visit : visits[i]? = some (.fetch key (.ok m.value))
  answer : answers[i]? = some (.value m)
  first : ∀ j < i, answers[j]? ≠ some (.value m)

namespace Recency

variable {l : Recency κ σ} {capacity : Nat} {key : κ} {m : Made σ}

/-- The values in the list have serial numbers of values made so far. -/
def Numbered (l : Recency κ σ) : Prop :=
  ∀ key m, (key, some m) ∈ l.entries → m.serial < l.made

/-- What a visit does to the values in the list: it keeps them, loses them, or makes a new one that
is the answer to it. -/
structure Continues (l : Recency κ σ) (v : Visit κ σ ε) (answer : Answer σ ε) (l' : Recency κ σ) :
    Prop where
  numbered : l'.Numbered
  made_le : l.made ≤ l'.made
  answered : ∀ m, answer = .value m → m.serial < l'.made
  origin : ∀ key m, (key, some m) ∈ l'.entries → (key, some m) ∈ l.entries ∨
    l.made ≤ m.serial ∧ v = .fetch key (.ok m.value) ∧ answer = .value m

theorem Numbered.continues_of_kept (h : l.Numbered) {v : Visit κ σ ε} {answer : Answer σ ε}
    {l' : Recency κ σ}
    (hkept : ∀ key m, (key, some m) ∈ l'.entries → (key, some m) ∈ l.entries)
    (hmade : l'.made = l.made)
    (hanswer : ∀ m, answer = .value m → ∃ key, (key, some m) ∈ l.entries) :
    Continues l v answer l' where
  numbered key m hmem := hmade ▸ h key m (hkept key m hmem)
  made_le := Nat.le_of_eq hmade.symm
  answered m hm := by
    obtain ⟨key, hmem⟩ := hanswer m hm
    exact hmade ▸ h key m hmem
  origin key m hmem := Or.inl (hkept key m hmem)

variable [DecidableEq κ]

/-- What is taken out of the list stood there, and nothing else comes in. -/
theorem exists_take (l : Recency κ σ) (capacity : Nat) (key : κ) :
    ∃ found rest, l.take capacity key = (found, rest) ∧ rest.entries ⊆ l.entries ∧
      rest.made = l.made ∧ ∀ m, found = some m → (key, some m) ∈ l.entries := by
  unfold take
  split
  · next e hfind =>
      have hkey : e.1 = key := by simpa using List.find?_some hfind
      refine ⟨e.2, _, rfl, List.filter_subset_self _, rfl, ?_⟩
      intro m hm
      rw [← hkey, ← hm]
      exact List.mem_of_find?_eq_some hfind
  · refine ⟨none, _, rfl, ?_, ?_, nofun⟩
    · unfold room
      split
      · exact List.Subset.refl _
      · exact List.dropLast_subset _
    · unfold room
      split <;> rfl

/-- A key that is fetched comes to stand in front with its value, with one that is made, or with
none. -/
theorem exists_fetch (l : Recency κ σ) (capacity : Nat) (key : κ) (result : Except ε σ) :
    ∃ rest : Recency κ σ, rest.entries ⊆ l.entries ∧ rest.made = l.made ∧
      ((∃ m, (key, some m) ∈ l.entries ∧
          l.fetch capacity key result = (.ok m, rest.put key (some m))) ∨
        (∃ x, result = .ok x ∧ l.fetch capacity key result =
          (.ok ⟨l.made, x⟩, { rest.put key (some ⟨l.made, x⟩) with made := l.made + 1 })) ∨
        ∃ e, result = .error e ∧ l.fetch capacity key result = (.error e, rest.put key none)) := by
  obtain ⟨found, rest, htake, hsubset, hmade, hfound⟩ := l.exists_take capacity key
  refine ⟨rest, hsubset, hmade, ?_⟩
  unfold fetch
  rw [htake]
  cases found with
  | some m => exact Or.inl ⟨m, hfound m rfl, rfl⟩
  | none =>
      cases result with
      | ok x => exact Or.inr (Or.inl ⟨x, rfl, by rw [← hmade]⟩)
      | error e => exact Or.inr (Or.inr ⟨e, rfl, rfl⟩)

theorem Numbered.continues (h : l.Numbered) (capacity : Nat) (v : Visit κ σ ε) :
    Continues l v (l.visit capacity v).1 (l.visit capacity v).2 := by
  cases v with
  | invalidate matching =>
      exact h.continues_of_kept (fun key m hmem => List.mem_of_mem_filter hmem) rfl nofun
  | fetch key result =>
      obtain ⟨rest, hsubset, hmade, hfetch⟩ := exists_fetch l capacity key result
      have hvisit : l.visit capacity (.fetch key result) =
          (.ofResult (l.fetch capacity key result).1, (l.fetch capacity key result).2) := rfl
      rw [hvisit]
      rcases hfetch with ⟨m, hm, hfetch⟩ | ⟨x, rfl, hfetch⟩ | ⟨e, rfl, hfetch⟩
      · rw [hfetch]
        refine h.continues_of_kept ?_ hmade ?_
        · intro key' m' hmem
          rcases List.mem_cons.mp hmem with heq | hmem
          · exact heq ▸ hm
          · exact hsubset hmem
        · intro m' hanswer
          obtain rfl : m = m' := by simpa [Answer.ofResult] using hanswer
          exact ⟨key, hm⟩
      · -- the key gets the next value that is made
        have hnew : ∀ key' m', (key', some m') ∈ (key, some ⟨l.made, x⟩) :: rest.entries →
            (key', some m') ∈ l.entries ∨ key' = key ∧ m' = ⟨l.made, x⟩ := by
          intro key' m' hmem
          rcases List.mem_cons.mp hmem with heq | hmem
          · exact Or.inr (by simpa using heq)
          · exact Or.inl (hsubset hmem)
        rw [hfetch]
        constructor
        · intro key' m' hmem
          rcases hnew key' m' hmem with hold | ⟨rfl, rfl⟩
          · exact Nat.lt_succ_of_lt (h key' m' hold)
          · exact Nat.lt_succ_self _
        · exact Nat.le_succ _
        · intro m' hanswer
          obtain rfl : ⟨l.made, x⟩ = m' := by simpa [Answer.ofResult] using hanswer
          exact Nat.lt_succ_self _
        · intro key' m' hmem
          refine (hnew key' m' hmem).imp id ?_
          rintro ⟨rfl, rfl⟩
          exact ⟨Nat.le_refl _, rfl, rfl⟩
      · rw [hfetch]
        refine h.continues_of_kept ?_ hmade nofun
        intro key' m' hmem
        rcases List.mem_cons.mp hmem with heq | hmem
        · simp at heq
        · exact hsubset hmem

/-- A value that is in the list after visits was there before them, or one of them made it. -/
theorem Numbered.exists_makes (h : l.Numbered) {visits : List (Visit κ σ ε)}
    (hmem : (key, some m) ∈ (l.visitAll capacity visits).2.entries) :
    (key, some m) ∈ l.entries ∨
      l.made ≤ m.serial ∧ ∃ i, Visit.Makes visits (l.visitAll capacity visits).1 i key m := by
  induction visits generalizing l with
  | nil => exact Or.inl hmem
  | cons v rest ih =>
      have hstep := h.continues capacity v
      rcases ih hstep.numbered hmem with hmem | ⟨hle, i, hmakes⟩
      · rcases hstep.origin key m hmem with hold | ⟨hle, hvisit, hanswer⟩
        · exact Or.inl hold
        · refine Or.inr ⟨hle, 0, congrArg some hvisit, congrArg some hanswer, ?_⟩
          exact fun j hj => absurd hj (Nat.not_lt_zero j)
      · refine Or.inr ⟨Nat.le_trans hstep.made_le hle, i + 1, hmakes.visit, hmakes.answer, ?_⟩
        rintro (_ | j) hj hanswer
        · have hlt := hstep.answered m (Option.some.inj hanswer)
          omega
        · exact hmakes.first j (Nat.lt_of_succ_lt_succ hj) hanswer

end Recency

end CriteriaQuery
