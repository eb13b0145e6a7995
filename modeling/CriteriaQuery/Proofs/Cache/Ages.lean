import CriteriaQuery.Proofs.Cache.Recency

/-!
# Ages of keys

The list of the last used keys stands in the order of the latest fetches of its keys, as a history
of all accesses tells them. A look for a value that makes none is an access, but it leaves the list
as it is: it is no use of its key as far as evictions go.

## Implementation notes

The history may be of any kind, as long as it tells which key an access has fetched. The age of a
key is the number of accesses after the latest one of a kind, so a greater age is an earlier time.
-/

namespace CriteriaQuery

variable {κ σ ε α : Type}

/-- The number of accesses after the latest one of a kind; all of them if there is none. -/
def age (kind : α → Bool) (past : List α) : Nat := past.reverse.findIdx kind

@[simp] theorem age_concat (kind : α → Bool) (past : List α) (a : α) :
    age kind (past ++ [a]) = if kind a then 0 else age kind past + 1 := by
  cases h : kind a <;> simp [age, List.findIdx_cons, h]

/-- More kinds of accesses make no key older. -/
theorem age_le {kind kind' : α → Bool} (h : ∀ a, kind a = true → kind' a = true) (past : List α) :
    age kind' past ≤ age kind past :=
  List.findIdx_le_findIdx fun a _ => h a

/-! ### Looking for a value -/

namespace Cache

variable {c c' : Cache κ σ} {l : Recency κ σ} {i : Nat}

/-- Whoever takes hold of a slot and leaves it as it was changes nothing. -/
theorem Refines.of_leaves (h : c.Refines [] l) (hi : i < c.slots.length)
    (hleaves : Leaves (c.hold i) i ((c.hold i).slot i).content c') (hmade : c'.made = c.made) :
    c'.Refines [] l := by
  have hslots : c.slots.length ≤ c'.slots.length := by
    rw [hleaves.slots, hold, length_slots_modifySlot]
  have hcontent : ∀ j, (c'.slot j).content = (c.slot j).content := by
    intro j
    rw [hleaves.content]
    split
    · next hij => rw [hij, content_hold]
    · exact content_hold
  have hentries : c'.entries = c.entries := hleaves.entries
  exact
    { sound := h.sound.of_sublist (by rw [places, hentries, places]) hslots
      free := hleaves.free fun j => locked_hold.trans (h.free j)
      holders j := by
        rw [hleaves.holders, holders_hold hi, h.holders]
        simp
      order := by
        rw [hentries, view_congr hcontent]
        exact h.order
      past := by
        rw [hentries, hleaves.clock]
        exact h.past
      bounded := by
        rw [hentries, hleaves.policy]
        exact h.bounded
      made := hmade.trans h.made
      evictions := hleaves.evictions.trans h.evictions }

variable [DecidableEq κ]

/-- A look for a value leaves the list of the last used keys as it is. -/
theorem Refines.exists_get (h : c.Refines [] l) (hon : c.policy.enabled = true) (key : κ) :
    ∃ found c', c.get? key = some (found, c') ∧ c'.Refines [] l ∧ c'.policy = c.policy := by
  rw [get?, if_pos hon]
  cases hfind : c.find? key with
  | none => exact ⟨none, c, rfl, h, rfl⟩
  | some r =>
      obtain ⟨i, held⟩ := r
      have hmem := mem_places_of_find hfind
      obtain ⟨e, -, heq⟩ := Option.map_eq_some_iff.mp hfind
      obtain ⟨rfl, rfl⟩ := Prod.mk.inj heq
      have hfree : (c.hold e.slot).Free := fun j => locked_hold.trans (h.free j)
      have hlock := hfree.lock_eq e.slot
      let found := (((c.hold e.slot).lock e.slot).slot e.slot).content
      -- the look-up is counted before the slot is let go of
      have hcount : ∀ b, ((((c.hold e.slot).lock e.slot).unlock e.slot).count b).drop e.slot =
          (((c.hold e.slot).lock e.slot).count b).leave e.slot := by
        intro b
        cases b <;> rfl
      refine ⟨found, (((c.hold e.slot).lock e.slot).count found.isSome).leave e.slot, ?_, ?_, ?_⟩
      · simp [hlock, hcount, found]
      · refine h.of_leaves (h.sound.inRange _ hmem) (counts_count _ _ _).leaves ?_
        cases found.isSome <;> rfl
      · cases found.isSome <;> rfl

end Cache

/-! ### The list and the history -/

namespace Recency

/-- The keys stand in the order of their latest fetches. -/
def Aged (l : Recency κ σ) (fetches : κ → α → Bool) (past : List α) : Prop :=
  l.keys.Pairwise fun key key' => age (fetches key) past < age (fetches key') past

variable {l : Recency κ σ} {fetches : κ → α → Bool} {past : List α} {a : α} {key : κ}

/-- Keys that an access has not fetched stay in their order. -/
theorem Aged.concat (h : l.Aged fetches past) {keys : List κ} (hkeys : keys.Sublist l.keys)
    (hnone : ∀ key ∈ keys, fetches key a = false) :
    keys.Pairwise fun key key' =>
      age (fetches key) (past ++ [a]) < age (fetches key') (past ++ [a]) := by
  refine (List.Pairwise.sublist hkeys h).imp_of_mem fun hkey hkey' hlt => ?_
  rw [age_concat, age_concat, hnone _ hkey, hnone _ hkey']
  exact Nat.succ_lt_succ hlt

variable [DecidableEq κ] {capacity : Nat}

/-- What is left of the list when a key is taken: the others, and without the last one where room
was made for a key that was not there. -/
theorem take_cases (l : Recency κ σ) (capacity : Nat) (key : κ) :
    (key ∈ l.keys ∧ (l.take capacity key).2.keys = l.keys.filter (fun k => !decide (k = key)) ∧
        (l.take capacity key).2.evictions = l.evictions) ∨
      key ∉ l.keys ∧
        ((l.take capacity key).2.keys = l.keys ∧ (l.take capacity key).2.evictions = l.evictions ∨
          capacity ≤ l.keys.length ∧ (l.take capacity key).2.keys = l.keys.dropLast ∧
            (l.take capacity key).2.evictions = l.evictions + 1) := by
  unfold take
  split
  · next e hfind =>
      have hkey : e.1 = key := by simpa using List.find?_some hfind
      refine Or.inl ⟨hkey ▸ List.mem_map_of_mem (List.mem_of_find?_eq_some hfind), ?_, rfl⟩
      rw [keys, keys, List.filter_map]
      rfl
  · next hfind =>
      refine Or.inr ⟨fun hkey => ?_, ?_⟩
      · obtain ⟨e, he, heq⟩ := List.mem_map.mp hkey
        exact List.find?_eq_none.mp hfind e he (by simpa using heq)
      · unfold room
        split
        · exact Or.inl ⟨rfl, rfl⟩
        · next hfull =>
            refine Or.inr ⟨?_, List.map_dropLast, rfl⟩
            rw [keys, List.length_map]
            exact Nat.not_lt.mp hfull

/-- A key that is fetched comes in front of what is left when it is taken. -/
theorem fetch_eq (l : Recency κ σ) (capacity : Nat) (key : κ) (result : Except ε σ) :
    (l.fetch capacity key result).2.keys = key :: (l.take capacity key).2.keys ∧
      (l.fetch capacity key result).2.evictions = (l.take capacity key).2.evictions := by
  unfold fetch
  obtain ⟨⟨found, rest⟩, htake⟩ : ∃ taken, l.take capacity key = taken := ⟨_, rfl⟩
  rw [htake]
  cases found with
  | some m => exact ⟨rfl, rfl⟩
  | none => cases result <;> exact ⟨rfl, rfl⟩

/-- What is left is left in its order, and without the key. -/
theorem keys_take (l : Recency κ σ) (capacity : Nat) (key : κ) :
    (l.take capacity key).2.keys.Sublist l.keys ∧ key ∉ (l.take capacity key).2.keys := by
  rcases l.take_cases capacity key with ⟨-, hkeys, -⟩ | ⟨hnew, ⟨hkeys, -⟩ | ⟨-, hkeys, -⟩⟩
  · rw [hkeys]
    exact ⟨List.filter_sublist, by simp⟩
  · rw [hkeys]
    exact ⟨.refl _, hnew⟩
  · rw [hkeys]
    exact ⟨List.dropLast_sublist _, fun hmem => hnew (List.mem_of_mem_dropLast hmem)⟩

/-- A visit keeps the keys in the order of their latest fetches, if the history goes on with the
fetch that the visit is. -/
theorem Aged.visit (h : l.Aged fetches past) (v : Visit κ σ ε)
    (hfetches : ∀ key, fetches key a = true ↔ ∃ result, v = .fetch key result) :
    (l.visit capacity v).2.Aged fetches (past ++ [a]) := by
  cases v with
  | invalidate matching =>
      have hsublist : (l.remove matching).keys.Sublist l.keys := List.filter_sublist.map _
      refine h.concat hsublist fun key _ => ?_
      rw [← Bool.not_eq_true, hfetches]
      rintro ⟨result, heq⟩
      nomatch heq
  | fetch key result =>
      obtain ⟨hsublist, hnew⟩ := l.keys_take capacity key
      have hkeys : (l.visit capacity (.fetch key result)).2.keys =
        key :: (l.take capacity key).2.keys := (l.fetch_eq capacity key result).1
      have hothers : ∀ key' ∈ (l.take capacity key).2.keys, fetches key' a = false := by
        intro key' hkey'
        rw [← Bool.not_eq_true, hfetches]
        rintro ⟨result', heq⟩
        obtain ⟨rfl, -⟩ := Visit.fetch.inj heq
        exact hnew hkey'
      have hfetched : fetches key a = true := (hfetches key).mpr ⟨result, rfl⟩
      -- the age of the key in front is zero, and all others have grown by one
      rw [Aged, hkeys]
      refine List.pairwise_cons.mpr ⟨fun key' hkey' => ?_, h.concat hsublist hothers⟩
      rw [age_concat, age_concat, hfetched, hothers key' hkey']
      exact Nat.succ_pos _

/-- Where a visit evicts, it fetches a key that is not there, and the key that goes is the last
one, which was fetched before all others. -/
theorem Aged.of_evicts (h : l.Aged fetches past) (hkeys : l.keys.Nodup) (hpos : 0 < capacity)
    {v : Visit κ σ ε} (hevicts : (l.visit capacity v).2.evictions ≠ l.evictions) :
    ∃ key result victim, v = .fetch key result ∧ key ∉ l.keys ∧ l.keys.getLast? = some victim ∧
      (l.visit capacity v).2.keys = key :: l.keys.erase victim ∧
      (l.visit capacity v).2.evictions = l.evictions + 1 ∧
      ∀ k ∈ l.keys, k ≠ victim → age (fetches k) past < age (fetches victim) past := by
  cases v with
  | invalidate matching => exact absurd rfl hevicts
  | fetch key result =>
      obtain ⟨hfront, hcount⟩ := l.fetch_eq capacity key result
      change (l.fetch capacity key result).2.evictions ≠ l.evictions at hevicts
      rw [hcount] at hevicts
      rcases l.take_cases capacity key with
        ⟨-, -, hsame⟩ | ⟨hnew, ⟨-, hsame⟩ | ⟨hfull, hrest, hmore⟩⟩
      · exact absurd hsame hevicts
      · exact absurd hsame hevicts
      · rcases List.eq_nil_or_concat' l.keys with hnil | ⟨front, victim, hlist⟩
        · rw [hnil] at hfull
          exact absurd (Nat.lt_of_lt_of_le hpos hfull) (Nat.lt_irrefl 0)
        · rw [hlist] at hkeys
          obtain ⟨-, -, hothers⟩ := List.nodup_append.mp hkeys
          have hfrontnew : victim ∉ front := fun hmem =>
            hothers victim hmem victim (List.mem_singleton_self victim) rfl
          have herase : l.keys.erase victim = l.keys.dropLast := by
            rw [hlist, List.erase_append_right _ hfrontnew, List.dropLast_concat]
            simp
          refine ⟨key, result, victim, rfl, hnew, by rw [hlist, List.getLast?_concat], ?_,
            hcount.trans hmore, fun k hk hne => ?_⟩
          · rw [herase, ← hrest]
            exact hfront
          · unfold Aged at h
            rw [hlist] at h hk
            obtain ⟨-, -, hbefore⟩ := List.pairwise_append.mp h
            have hkfront := (List.mem_append.mp hk).resolve_right
              fun hlast => hne (List.mem_singleton.mp hlast)
            exact hbefore k hkfront victim (List.mem_singleton_self victim)

end Recency

end CriteriaQuery
