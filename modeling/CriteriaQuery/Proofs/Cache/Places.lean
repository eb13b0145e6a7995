import CriteriaQuery.Proofs.Cache.Slots
import Mathlib.Data.List.Nodup

/-!
# Places of the keys of a cache

The place of a key is the slot that its entry points at. Keys have different places. An eviction
takes away places of idle slots only, and so does a sweep, which takes hold of the other slots of
matching keys, whatever idle slots they find. Whoever asks for the slot of a key holds its place
afterwards.
-/

namespace CriteriaQuery.Cache

variable {κ σ : Type} {c c' : Cache κ σ} {i j : Nat}

/-- The places of the keys: the slots that their entries point at. -/
def places (c : Cache κ σ) : List (κ × Nat) := c.entries.map fun e => (e.1, e.2.slot)

/-- Every key has one place, every slot is the place of one key at most, and every place is a slot
that was made. -/
structure Sound (c : Cache κ σ) : Prop where
  keys : (c.places.map Prod.fst).Nodup
  slots : (c.places.map Prod.snd).Nodup
  inRange : ∀ place ∈ c.places, place.2 < c.slots.length

theorem Sound.slot_eq (h : c.Sound) {key : κ} (hi : (key, i) ∈ c.places)
    (hj : (key, j) ∈ c.places) : i = j :=
  congrArg Prod.snd (List.inj_on_of_nodup_map h.keys hi hj rfl)

theorem Sound.key_eq (h : c.Sound) {key key' : κ} (hi : (key, i) ∈ c.places)
    (hj : (key', i) ∈ c.places) : key = key' :=
  congrArg Prod.fst (List.inj_on_of_nodup_map h.slots hi hj rfl)

/-- Fewer places are as sound. -/
theorem Sound.of_sublist (h : c.Sound) (hplaces : c'.places.Sublist c.places)
    (hslots : c.slots.length ≤ c'.slots.length) : c'.Sound where
  keys := h.keys.sublist (hplaces.map _)
  slots := h.slots.sublist (hplaces.map _)
  inRange place hplace := Nat.lt_of_lt_of_le (h.inRange place (hplaces.subset hplace)) hslots

theorem Sound.modifySlot (h : c.Sound) (i : Nat) (f : Slot σ → Slot σ) : (c.modifySlot i f).Sound :=
  h.of_sublist (.refl _) (Nat.le_of_eq (length_slots_modifySlot ..).symm)

section Entries

variable [DecidableEq κ] {key : κ} {e : CacheEntry}

theorem mem_entries_of_entry (h : c.entry? key = some e) : (key, e) ∈ c.entries := by
  obtain ⟨⟨k, e'⟩, hfind, rfl⟩ := Option.map_eq_some_iff.mp h
  obtain rfl : k = key := by simpa using List.find?_some hfind
  exact List.mem_of_find?_eq_some hfind

theorem mem_places_of_entry (h : c.entry? key = some e) : (key, e.slot) ∈ c.places :=
  List.mem_map.mpr ⟨(key, e), mem_entries_of_entry h, rfl⟩

theorem entry?_eq_none_iff : c.entry? key = none ↔ ∀ i, (key, i) ∉ c.places := by
  rw [ entry?, Option.map_eq_none_iff, List.find?_eq_none]
  constructor
  · intro h i hi
    obtain ⟨e, he, heq⟩ := List.mem_map.mp hi
    exact h e he (by simpa using congrArg Prod.fst heq)
  · intro h e he hkey
    obtain rfl : e.1 = key := by simpa using hkey
    exact h e.2.slot (List.mem_map.mpr ⟨e, he, rfl⟩)

theorem Sound.exists_entry (h : c.Sound) (hi : (key, i) ∈ c.places) :
    ∃ e, c.entry? key = some e ∧ e.slot = i := by
  cases hentry : c.entry? key with
  | none => exact absurd hi (entry?_eq_none_iff.mp hentry i)
  | some e => exact ⟨e, rfl, h.slot_eq (mem_places_of_entry hentry) hi⟩

/-- What the slot of a key holds, as long as the key has one. -/
def content? (c : Cache κ σ) (key : κ) : Option (Made σ) :=
  (c.entry? key).bind fun e => (c.slot e.slot).content

theorem Sound.content?_eq (h : c.Sound) (hi : (key, i) ∈ c.places) :
    c.content? key = (c.slot i).content := by
  obtain ⟨e, hentry, rfl⟩ := h.exists_entry hi
  simp [content?, hentry]

/-- What leaves the contents of slots alone leaves those of keys alone. -/
theorem content?_modifySlot {f : Slot σ → Slot σ} (hf : ∀ s, (f s).content = s.content)
    (c : Cache κ σ) (i : Nat) (key : κ) : (c.modifySlot i f).content? key = c.content? key :=
  congrArg (Option.bind (c.entry? key))
    (funext fun e => apply_slot_modifySlot Slot.content hf c i e.slot)

@[simp] theorem content?_lock : (c.lock i).content? key = c.content? key :=
  content?_modifySlot (fun _ => by rfl) c i key

@[simp] theorem content?_unlock : (c.unlock i).content? key = c.content? key :=
  content?_modifySlot (fun _ => by rfl) c i key

@[simp] theorem content?_drop : (c.drop i).content? key = c.content? key :=
  content?_modifySlot (fun _ => by rfl) c i key

@[simp] theorem content?_count (found : Bool) : (c.count found).content? key = c.content? key := by
  cases found <;> rfl

theorem content?_eq_none (h : ∀ i, (key, i) ∉ c.places) : c.content? key = none := by
  simp [content?, entry?_eq_none_iff.mpr h]

end Entries

/-! ### Evictions -/

/-- Some idle places are gone, and nothing else has changed. -/
structure Trims (c c' : Cache κ σ) : Prop where
  slots : c'.slots = c.slots
  sublist : c'.places.Sublist c.places
  busy : ∀ place ∈ c.places, (c.slot place.2).holders ≠ 0 → place ∈ c'.places
  policy : c'.policy = c.policy
  made : c'.made = c.made

theorem Trims.refl (c : Cache κ σ) : Trims c c := ⟨rfl, .refl _, fun _ h _ => h, rfl, rfl⟩

theorem Trims.trans {c'' : Cache κ σ} (h : Trims c c') (h' : Trims c' c'') : Trims c c'' where
  slots := h'.slots.trans h.slots
  sublist := h'.sublist.trans h.sublist
  busy place hplace hholders := by
    have hslot : c'.slot place.2 = c.slot place.2 := by rw [slot, h.slots, slot]
    exact h'.busy place (h.busy place hplace hholders) (hslot ▸ hholders)
  policy := h'.policy.trans h.policy
  made := h'.made.trans h.made

theorem Trims.sound (htrims : Trims c c') (h : c.Sound) : c'.Sound :=
  h.of_sublist htrims.sublist (Nat.le_of_eq (by rw [htrims.slots]))

theorem mem_of_oldest? {entries : List (κ × CacheEntry)} {e : κ × CacheEntry}
    (h : oldest? entries = some e) : e ∈ entries := by
  induction entries generalizing e with
  | nil => simp [oldest?] at h
  | cons first rest ih =>
      unfold oldest? at h
      split at h
      · obtain rfl := Option.some.inj h
        exact List.mem_cons_self
      · next f hrest =>
          obtain rfl := Option.some.inj h
          split
          · exact List.mem_cons_self
          · exact List.mem_cons_of_mem _ (ih hrest)

theorem capacity_pos (policy : CachePolicy) : 0 < policy.capacity :=
  Nat.lt_of_lt_of_le Nat.one_pos (Nat.le_max_right policy.maxEntries 1)

theorem exists_oldest {entries : List (κ × CacheEntry)} {e : κ × CacheEntry}
    (he : e ∈ entries) :
    ∃ first, oldest? entries = some first ∧
      ∀ f ∈ entries, first.2.lastUsed ≤ f.2.lastUsed := by
  induction entries generalizing e with
  | nil => simp at he
  | cons a rest ih =>
      unfold oldest?
      cases hrest : oldest? rest with
      | none =>
          -- nothing comes after it
          have hnone : ∀ f, f ∉ rest := by
            intro f hf
            obtain ⟨first, hfirst, -⟩ := ih hf
            simp [hrest] at hfirst
          refine ⟨a, rfl, ?_⟩
          intro f hf
          rcases List.mem_cons.mp hf with rfl | hf
          · exact Nat.le_refl _
          · exact absurd hf (hnone f)
      | some g =>
          obtain ⟨first, hfirst, hleast⟩ := ih (mem_of_oldest? hrest)
          obtain rfl : g = first := Option.some.inj (hrest.symm.trans hfirst)
          by_cases hle : a.2.lastUsed ≤ g.2.lastUsed
          · refine ⟨a, by simp [hle], ?_⟩
            intro f hf
            rcases List.mem_cons.mp hf with rfl | hf
            · exact Nat.le_refl _
            · exact Nat.le_trans hle (hleast f hf)
          · refine ⟨g, by simp [hle], ?_⟩
            intro f hf
            rcases List.mem_cons.mp hf with rfl | hf
            · omega
            · exact hleast f hf

section Evictions

variable [DecidableEq κ]

theorem trims_evictOf {idle : CacheEntry → Bool} (h : c.Sound)
    (hidle : ∀ e ∈ c.entries, idle e.2 = true → c.isIdle e.2 = true)
    (hevict : c.evictOf? idle = some c') : Trims c c' := by
  obtain ⟨victim, hvictim, rfl⟩ := Option.map_eq_some_iff.mp hevict
  obtain ⟨hmem, hfound⟩ := List.mem_filter.mp (mem_of_oldest? hvictim)
  refine ⟨rfl, List.filter_sublist.map _, ?_, rfl, rfl⟩
  intro place hplace hholders
  obtain ⟨e, he, rfl⟩ := List.mem_map.mp hplace
  refine List.mem_map.mpr ⟨e, List.mem_filter.mpr ⟨he, ?_⟩, rfl⟩
  -- the victim has the only place of its key, and that place is idle
  have hkey : e.1 ≠ victim.1 := by
    intro heq
    have hslot : e.2.slot = victim.2.slot :=
      h.slot_eq hplace (List.mem_map.mpr ⟨victim, hmem, by rw [heq]⟩)
    exact hholders (by simpa [isIdle, hslot] using hidle _ hmem hfound)
  simpa using hkey

theorem trims_evict (h : c.Sound) (hevict : c.evict? = some c') : Trims c c' :=
  trims_evictOf h (fun _ _ => id) hevict

end Evictions

@[simp] theorem places_touch [DecidableEq κ] (c : Cache κ σ) (key : κ) (now : Nat) :
    (c.touch key now).places = c.places := by
  simp only [places, touch, List.map_map]
  apply List.map_congr_left
  intro e _
  by_cases h : e.1 = key <;> simp [h]

/-! ### Taking hold of the slot of a key -/

section Acquire

/-- The slot of a key is held once more, after idle places may have gone and, if the key had no
place, an empty slot has become its place. -/
structure Acquires (c : Cache κ σ) (key : κ) (i : Nat) (c' : Cache κ σ) : Prop where
  sound : c'.Sound
  mem : (key, i) ∈ c'.places
  busy : ∀ place ∈ c.places, (c.slot place.2).holders ≠ 0 → place ∈ c'.places
  kept : (key, i) ∈ c.places → c'.places = c.places
  of_mem : ∀ place ∈ c'.places, place ∈ c.places ∨
    (∀ j, (place.1, j) ∉ c.places) ∧ (c.slot place.2).content = none
  holders : ∀ j, (c'.slot j).holders = (c.slot j).holders + [i].count j
  locked : ∀ j, (c'.slot j).locked = (c.slot j).locked
  content : ∀ j, (c'.slot j).content = (c.slot j).content
  policy : c'.policy = c.policy
  made : c'.made = c.made

/-- A key that has a place keeps it while other places go, or none. -/
theorem acquires_hold {key : κ} (h : c.Sound) (htrims : Trims c c')
    (hkept : c'.places = c.places) (hmem : (key, i) ∈ c.places) :
    Acquires c key i (c'.hold i) := by
  have hplaces : (c'.hold i).places = c.places := hkept
  have hslot : ∀ j, c'.slot j = c.slot j := fun j => by rw [slot, htrims.slots, slot]
  have hlength : (c'.hold i).slots.length = c.slots.length := by
    rw [hold, length_slots_modifySlot, htrims.slots]
  have hrange : i < c'.slots.length := htrims.slots ▸ h.inRange _ hmem
  constructor
  · exact h.of_sublist (hplaces ▸ .refl _) (Nat.le_of_eq hlength.symm)
  · exact hplaces ▸ hmem
  · exact fun place hplace _ => hplaces ▸ hplace
  · exact fun _ => hplaces
  · exact fun place hplace => Or.inl (hplaces ▸ hplace)
  · exact fun j => by rw [holders_hold hrange, hslot]
  · exact fun j => by rw [locked_hold, hslot]
  · exact fun j => by rw [content_hold, hslot]
  · exact htrims.policy
  · exact htrims.made

theorem trims_touch [DecidableEq κ] (c : Cache κ σ) (key : κ) (now : Nat) :
    Trims c (c.touch key now) := by
  refine ⟨rfl, ?_, ?_, rfl, rfl⟩
  · exact places_touch c key now ▸ .refl _
  · exact fun place hplace _ => places_touch c key now ▸ hplace

theorem slot_addEntry (c : Cache κ σ) (key : κ) (now : Nat) :
    (c.addEntry key now).slot i =
      if i = c.slots.length then { holders := 1 } else c.slot i := by
  simp only [addEntry, slot, List.getElem?_append]
  rcases Nat.lt_trichotomy i c.slots.length with h | rfl | h
  · simp [h, Nat.ne_of_lt h]
  · simp
  · obtain ⟨n, hn⟩ : ∃ n, i - c.slots.length = n + 1 := ⟨i - c.slots.length - 1, by omega⟩
    simp [Nat.not_lt.mpr (Nat.le_of_lt h), Nat.ne_of_gt h, hn]

theorem places_addEntry (c : Cache κ σ) (key : κ) (now : Nat) :
    (c.addEntry key now).places = c.places ++ [(key, c.slots.length)] := by
  simp [places, addEntry]

/-- A new slot for a key without a place. -/
theorem Sound.addEntry {key : κ} (now : Nat) (h : c.Sound) (hnew : ∀ i, (key, i) ∉ c.places) :
    (c.addEntry key now).Sound := by
  constructor
  · rw [places_addEntry, List.map_append, List.map_singleton]
    refine List.nodup_append.mpr ⟨h.keys, List.nodup_singleton _, ?_⟩
    rintro _ hkey _ hlast rfl
    obtain ⟨place, hplace, heq⟩ := List.mem_map.mp hkey
    obtain rfl := List.mem_singleton.mp hlast
    exact hnew place.2 (heq ▸ hplace)
  · rw [places_addEntry, List.map_append, List.map_singleton]
    refine List.nodup_append.mpr ⟨h.slots, List.nodup_singleton _, ?_⟩
    rintro _ hslot _ hlast rfl
    obtain ⟨place, hplace, heq⟩ := List.mem_map.mp hslot
    obtain rfl := List.mem_singleton.mp hlast
    exact Nat.ne_of_lt (h.inRange place hplace) heq
  · intro place hplace
    have hlength : (c.addEntry key now).slots.length = c.slots.length + 1 := List.length_append
    rw [places_addEntry] at hplace
    rcases List.mem_append.mp hplace with hplace | hplace
    · exact hlength ▸ Nat.lt_succ_of_lt (h.inRange place hplace)
    · obtain rfl := List.mem_singleton.mp hplace
      exact hlength ▸ Nat.lt_succ_self _

/-- A key without a place gets a new slot, after idle places may have gone. -/
theorem acquires_addEntry {key : κ} (now : Nat) (h : c.Sound) (htrims : Trims c c')
    (hnew : ∀ i, (key, i) ∉ c.places) :
    Acquires c key c'.slots.length (c'.addEntry key now) := by
  have hfresh : c.slot c'.slots.length = {} :=
    slot_eq_default (Nat.le_of_eq (by rw [htrims.slots]))
  have hslot : ∀ j, (c'.addEntry key now).slot j =
      if j = c'.slots.length then { holders := 1 } else c.slot j := by
    intro j
    rw [slot_addEntry, slot.eq_def c', htrims.slots, slot.eq_def c]
  constructor
  · exact (htrims.sound h).addEntry now fun j hj => hnew j (htrims.sublist.subset hj)
  · rw [places_addEntry]
    exact List.mem_append_right _ (List.mem_singleton.mpr rfl)
  · intro place hplace hholders
    rw [places_addEntry]
    exact List.mem_append_left _ (htrims.busy place hplace hholders)
  · exact fun hmem => absurd hmem (hnew _)
  · intro place hplace
    rw [places_addEntry] at hplace
    rcases List.mem_append.mp hplace with hplace | hplace
    · exact Or.inl (htrims.sublist.subset hplace)
    · obtain rfl := List.mem_singleton.mp hplace
      exact Or.inr ⟨hnew, by rw [hfresh]⟩
  · intro j
    rw [hslot]
    split
    · next hj => simp [hj, hfresh]
    · next hj => simp [Ne.symm hj]
  · intro j
    rw [hslot]
    split
    · next hj => rw [hj, hfresh]
    · rfl
  · intro j
    rw [hslot]
    split
    · next hj => rw [hj, hfresh]
    · rfl
  · exact htrims.policy
  · exact htrims.made

variable [DecidableEq κ]

theorem mem_places_of_find {key : κ} (hfind : c.find? key = some (i, c')) :
    (key, i) ∈ c.places := by
  obtain ⟨e, hentry, heq⟩ := Option.map_eq_some_iff.mp hfind
  obtain ⟨rfl, -⟩ := Prod.mk.inj heq
  exact mem_places_of_entry hentry

theorem acquires_find {key : κ} (h : c.Sound) (hfind : c.find? key = some (i, c')) :
    Acquires c key i c' := by
  obtain ⟨e, hentry, heq⟩ := Option.map_eq_some_iff.mp hfind
  obtain ⟨rfl, rfl⟩ := Prod.mk.inj heq
  exact acquires_hold h (.refl c) rfl (mem_places_of_entry hentry)

end Acquire

/-! ### Sweeping -/

section Sweep

/-- Some idle places of matching keys are gone, and the slots of all other matching keys are held
once more. -/
structure Sweeps (c : Cache κ σ) (matching : κ → Bool) (busy : List Nat) (c' : Cache κ σ) :
    Prop where
  sound : c'.Sound
  of_mem : ∀ place ∈ c'.places, place ∈ c.places
  kept : ∀ place ∈ c.places, (c.slot place.2).holders ≠ 0 ∨ matching place.1 = false →
    place ∈ c'.places
  mem_busy : ∀ i, i ∈ busy ↔ ∃ key, (key, i) ∈ c'.places ∧ matching key = true
  holders : ∀ j, (c'.slot j).holders = (c.slot j).holders + busy.count j
  locked : ∀ j, (c'.slot j).locked = (c.slot j).locked
  content : ∀ j, (c'.slot j).content = (c.slot j).content
  policy : c'.policy = c.policy
  made : c'.made = c.made

/-- The slots are held in any order. -/
theorem Sweeps.perm {matching : κ → Bool} {busy order : List Nat} (h : Sweeps c matching busy c')
    (horder : order.Perm busy) : Sweeps c matching order c' :=
  { h with
    mem_busy := fun i => horder.mem_iff.trans (h.mem_busy i)
    holders := fun j => by rw [h.holders, horder.count_eq] }

/-- What is left alone at every slot is left alone at a list of them. -/
theorem apply_foldl_eq {α : Type} (f : Cache κ σ → Nat → Cache κ σ) (g : Cache κ σ → α)
    (hg : ∀ c i, g (f c i) = g c) (is : List Nat) (c : Cache κ σ) : g (is.foldl f c) = g c := by
  induction is generalizing c with
  | nil => rfl
  | cons i is ih => rw [List.foldl_cons, ih, hg]

theorem count_cons_eq (i : Nat) (is : List Nat) (j : Nat) :
    (i :: is).count j = [i].count j + is.count j := by
  rw [← List.count_append]
  rfl

theorem holders_foldl_hold {is : List Nat} (h : ∀ i ∈ is, i < c.slots.length) :
    ((is.foldl hold c).slot j).holders = (c.slot j).holders + is.count j := by
  induction is generalizing c with
  | nil => rfl
  | cons i is ih =>
      have hi := h i List.mem_cons_self
      have hrest : ∀ i' ∈ is, i' < (c.hold i).slots.length := fun i' hi' => by
        rw [hold, length_slots_modifySlot]
        exact h i' (List.mem_cons_of_mem i hi')
      rw [List.foldl_cons, ih hrest, holders_hold hi, Nat.add_assoc, count_cons_eq i is]

variable {idle : CacheEntry → Bool} {matching : κ → Bool}

theorem entries_sweepOf (c : Cache κ σ) (idle : CacheEntry → Bool) (matching : κ → Bool) :
    (c.sweepOf idle matching).2.entries =
      c.entries.filter fun e => !matching e.1 || !idle e.2 :=
  apply_foldl_eq hold Cache.entries (fun _ _ => rfl) _ _

theorem mem_places_sweepOf_iff {place : κ × Nat} :
    place ∈ (c.sweepOf idle matching).2.places ↔
      ∃ e ∈ c.entries, (e.1, e.2.slot) = place ∧ (matching e.1 = true → idle e.2 = false) := by
  rw [places, entries_sweepOf]
  simp only [List.mem_map, List.mem_filter]
  constructor
  · rintro ⟨e, ⟨he, hp⟩, rfl⟩
    exact ⟨e, he, rfl, by simpa [imp_iff_not_or] using hp⟩
  · rintro ⟨e, he, rfl, hp⟩
    exact ⟨e, ⟨he, by simpa [imp_iff_not_or] using hp⟩, rfl⟩

/-- The slots that are busy are those of matching keys that keep their entries. -/
theorem mem_sweepOf_iff {i : Nat} : i ∈ (c.sweepOf idle matching).1 ↔
    ∃ key, (key, i) ∈ (c.sweepOf idle matching).2.places ∧ matching key = true := by
  simp only [mem_places_sweepOf_iff]
  simp only [sweepOf, List.mem_map, List.mem_filter, Bool.and_eq_true, Bool.not_eq_true']
  constructor
  · rintro ⟨e, ⟨he, hkey, hfound⟩, rfl⟩
    exact ⟨e.1, ⟨e, he, rfl, fun _ => hfound⟩, hkey⟩
  · rintro ⟨key, ⟨e, he, heq, hfound⟩, hkey⟩
    obtain ⟨rfl, rfl⟩ := Prod.mk.inj heq
    exact ⟨e, ⟨he, hkey, hfound hkey⟩, rfl⟩

theorem sweeps_sweepOf (h : c.Sound)
    (hidle : ∀ e ∈ c.entries, idle e.2 = true → c.isIdle e.2 = true) (matching : κ → Bool) :
    Sweeps c matching (c.sweepOf idle matching).1 (c.sweepOf idle matching).2 := by
  let busy := (c.sweepOf idle matching).1
  let kept : Cache κ σ := { c with entries := (c.sweepOf idle matching).2.entries }
  have hof : ∀ place ∈ (c.sweepOf idle matching).2.places, place ∈ c.places := by
    intro place hplace
    obtain ⟨e, he, rfl, -⟩ := mem_places_sweepOf_iff.mp hplace
    exact List.mem_map.mpr ⟨e, he, rfl⟩
  have hrange : ∀ i ∈ busy, i < kept.slots.length := by
    intro i hi
    obtain ⟨key, hmem, -⟩ := mem_sweepOf_iff.mp hi
    exact h.inRange _ (hof _ hmem)
  have hfold : (c.sweepOf idle matching).2 = busy.foldl hold kept := by
    simp only [kept, entries_sweepOf]
    rfl
  have hlength : (c.sweepOf idle matching).2.slots.length = c.slots.length :=
    hfold ▸ apply_foldl_eq hold (fun c => c.slots.length)
      (fun _ _ => length_slots_modifySlot ..) busy kept
  have hsub : (c.sweepOf idle matching).2.places.Sublist c.places := by
    rw [places, entries_sweepOf]
    exact List.filter_sublist.map _
  constructor
  · exact h.of_sublist hsub (Nat.le_of_eq hlength.symm)
  · exact hof
  · intro place hplace hor
    obtain ⟨e, he, rfl⟩ := List.mem_map.mp hplace
    refine mem_places_sweepOf_iff.mpr ⟨e, he, rfl, fun hkey => ?_⟩
    have hholders := hor.resolve_right (by simp [hkey])
    by_contra hfound
    exact hholders (by simpa [isIdle] using hidle e he (by simpa using hfound))
  · exact fun i => mem_sweepOf_iff
  · exact fun j => hfold ▸ holders_foldl_hold hrange
  · exact fun j => hfold ▸
      apply_foldl_eq hold (fun c => (c.slot j).locked) (fun _ _ => locked_hold) busy kept
  · exact fun j => hfold ▸
      apply_foldl_eq hold (fun c => (c.slot j).content) (fun _ _ => content_hold) busy kept
  · exact hfold ▸ apply_foldl_eq hold Cache.policy (fun _ _ => rfl) busy kept
  · exact hfold ▸ apply_foldl_eq hold Cache.made (fun _ _ => rfl) busy kept

theorem sweeps_of_sweepOf {busy : List Nat} (h : c.Sound)
    (hidle : ∀ e ∈ c.entries, idle e.2 = true → c.isIdle e.2 = true)
    (hsweep : c.sweepOf idle matching = (busy, c')) : Sweeps c matching busy c' := by
  have hsweeps := sweeps_sweepOf h hidle matching
  rwa [hsweep] at hsweeps

end Sweep

end CriteriaQuery.Cache
