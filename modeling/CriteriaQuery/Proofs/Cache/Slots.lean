import CriteriaQuery.Cache.Basic
import Mathlib.Data.List.Basic

/-!
# Slots of a cache

What the operations on a slot do to each slot of a cache. An operation changes one part of one
slot.
-/

namespace CriteriaQuery.Cache

variable {κ σ : Type} {c c' : Cache κ σ} {i j : Nat}

/-! ### Slots -/

theorem slot_modifySlot (c : Cache κ σ) (i j : Nat) (f : Slot σ → Slot σ) :
    (c.modifySlot i f).slot j = if i = j ∧ j < c.slots.length then f (c.slot j) else c.slot j := by
  simp only [slot, modifySlot, List.getElem?_modify]
  by_cases hj : j < c.slots.length
  · by_cases hij : i = j <;> simp [hij, hj]
  · simp [hj]

/-- Whatever an operation leaves alone stays the same in all slots. -/
theorem apply_slot_modifySlot {α : Type} (g : Slot σ → α) {f : Slot σ → Slot σ}
    (h : ∀ s, g (f s) = g s) (c : Cache κ σ) (i j : Nat) :
    g ((c.modifySlot i f).slot j) = g (c.slot j) := by
  rw [slot_modifySlot]
  split
  · exact h _
  · rfl

@[simp] theorem length_slots_modifySlot (c : Cache κ σ) (i : Nat) (f : Slot σ → Slot σ) :
    (c.modifySlot i f).slots.length = c.slots.length := List.length_modify ..

/-- The cache with a slot locked. -/
def lock (c : Cache κ σ) (i : Nat) : Cache κ σ :=
  c.modifySlot i fun s => { s with locked := true }

@[simp] theorem length_slots_lock (c : Cache κ σ) (i : Nat) :
    (c.lock i).slots.length = c.slots.length := length_slots_modifySlot ..

theorem lock?_eq_some_iff : c.lock? i = some c' ↔ (c.slot i).locked = false ∧ c' = c.lock i := by
  unfold lock?
  split
  · next h => simp [h]
  · next h => simp [h, lock, eq_comm]

/-- Nothing is known of a slot that was never made. -/
theorem slot_eq_default (h : c.slots.length ≤ i) : c.slot i = {} := by
  simp [slot, List.getElem?_eq_none h]

section Holders

theorem holders_hold (hi : i < c.slots.length) :
    ((c.hold i).slot j).holders = (c.slot j).holders + [i].count j := by
  rw [hold, slot_modifySlot]
  by_cases hij : i = j
  · subst hij
    simp [hi]
  · simp [hij]

@[simp] theorem holders_drop :
    ((c.drop i).slot j).holders = (c.slot j).holders - [i].count j := by
  rw [drop, slot_modifySlot]
  by_cases hij : i = j
  · subst hij
    by_cases hi : i < c.slots.length
    · simp [hi]
    · simp [hi, slot]
  · simp [hij]

@[simp] theorem holders_lock : ((c.lock i).slot j).holders = (c.slot j).holders :=
  apply_slot_modifySlot Slot.holders (fun _ => by rfl) c i j

@[simp] theorem holders_unlock : ((c.unlock i).slot j).holders = (c.slot j).holders :=
  apply_slot_modifySlot Slot.holders (fun _ => by rfl) c i j

@[simp] theorem holders_fill {x : Option (Made σ)} :
    ((c.fill i x).slot j).holders = (c.slot j).holders :=
  apply_slot_modifySlot Slot.holders (fun _ => by rfl) c i j

end Holders

section Locks

@[simp] theorem locked_hold : ((c.hold i).slot j).locked = (c.slot j).locked :=
  apply_slot_modifySlot Slot.locked (fun _ => by rfl) c i j

@[simp] theorem locked_drop : ((c.drop i).slot j).locked = (c.slot j).locked :=
  apply_slot_modifySlot Slot.locked (fun _ => by rfl) c i j

theorem locked_lock (hi : i < c.slots.length) :
    ((c.lock i).slot j).locked = if i = j then true else (c.slot j).locked := by
  rw [lock, slot_modifySlot]
  by_cases hij : i = j
  · subst hij
    simp [hi]
  · simp [hij]

@[simp] theorem locked_unlock :
    ((c.unlock i).slot j).locked = if i = j then false else (c.slot j).locked := by
  rw [unlock, slot_modifySlot]
  by_cases hij : i = j
  · subst hij
    by_cases hi : i < c.slots.length
    · simp [hi]
    · simp [hi, slot]
  · simp [hij]

@[simp] theorem locked_fill {x : Option (Made σ)} :
    ((c.fill i x).slot j).locked = (c.slot j).locked :=
  apply_slot_modifySlot Slot.locked (fun _ => by rfl) c i j

end Locks

section Contents

@[simp] theorem content_hold : ((c.hold i).slot j).content = (c.slot j).content :=
  apply_slot_modifySlot Slot.content (fun _ => by rfl) c i j

@[simp] theorem content_drop : ((c.drop i).slot j).content = (c.slot j).content :=
  apply_slot_modifySlot Slot.content (fun _ => by rfl) c i j

@[simp] theorem content_lock : ((c.lock i).slot j).content = (c.slot j).content :=
  apply_slot_modifySlot Slot.content (fun _ => by rfl) c i j

@[simp] theorem content_unlock : ((c.unlock i).slot j).content = (c.slot j).content :=
  apply_slot_modifySlot Slot.content (fun _ => by rfl) c i j

theorem content_fill {x : Option (Made σ)} (hi : i < c.slots.length) :
    ((c.fill i x).slot j).content = if i = j then x else (c.slot j).content := by
  rw [fill, slot_modifySlot]
  by_cases hij : i = j
  · subst hij
    simp [hi]
  · simp [hij]

end Contents

end CriteriaQuery.Cache
