import CriteriaQuery.Cache.Metrics
import CriteriaQuery.Proofs.Cache.Alone

/-!
# Keys in the order of their last use

Calls one after the other keep the least recently used keys out of a cache. What they do is told
without clocks and slots: a list of keys, the last one used in front, of which the last goes when
another key comes and the list is full. A key whose value could not be made has its place in the
list like any other.

## Implementation notes

The entries of a cache may stand in any order. The times of their last use are different from one
another, and put in the order of these times the entries are the list. Time is a count that does
not run out.
-/

namespace CriteriaQuery

variable {κ σ ε : Type}

/-- A visit to a cache that makes no other calls on it: a key is fetched, with what its build would
end with, or matching keys are invalidated. -/
inductive Visit (κ σ ε : Type)
  | fetch (key : κ) (result : Except ε σ)
  | invalidate (matching : κ → Bool)

/-- Keys with their values, the last one used in front. A key whose build has failed has none. -/
structure Recency (κ σ : Type) where
  entries : List (κ × Option (Made σ)) := []
  /-- The count of values made so far. -/
  made : Nat := 0
  evictions : Nat := 0

namespace Recency

/-- The keys, the last one used in front. -/
def keys (l : Recency κ σ) : List κ := l.entries.map Prod.fst

/-- Makes room for another key: of a full list the last key goes. -/
def room (capacity : Nat) (l : Recency κ σ) : Recency κ σ :=
  if l.entries.length < capacity then l
  else { l with entries := l.entries.dropLast, evictions := l.evictions + 1 }

/-- Puts a key in front. -/
def put (l : Recency κ σ) (key : κ) (value : Option (Made σ)) : Recency κ σ :=
  { l with entries := (key, value) :: l.entries }

/-- Makes matching keys go. -/
def remove (l : Recency κ σ) (matching : κ → Bool) : Recency κ σ :=
  { l with entries := l.entries.filter fun e => !matching e.1 }

variable [DecidableEq κ]

/-- The value of a key, and the others without it; room is made for a key that is not there. -/
def take (capacity : Nat) (key : κ) (l : Recency κ σ) : Option (Made σ) × Recency κ σ :=
  match l.entries.find? fun e => e.1 = key with
  | some e => (e.2, l.remove fun k => k = key)
  | none => (none, l.room capacity)

/-- The value of a key, which is made if there is none. The key is in front from then on. -/
def fetch (capacity : Nat) (key : κ) (result : Except ε σ) (l : Recency κ σ) :
    Except ε (Made σ) × Recency κ σ :=
  match l.take capacity key, result with
  | (some m, l), _ => (.ok m, l.put key (some m))
  | (none, l), .ok v => (.ok ⟨l.made, v⟩, { l.put key (some ⟨l.made, v⟩) with made := l.made + 1 })
  | (none, l), .error e => (.error e, l.put key none)

/-- The answer to a visit, and the list after it. -/
def visit (capacity : Nat) (l : Recency κ σ) : Visit κ σ ε → Answer σ ε × Recency κ σ
  | .fetch key result =>
    (.ofResult (l.fetch capacity key result).1, (l.fetch capacity key result).2)
  | .invalidate matching => (.done, l.remove matching)

/-- The answers to visits one after the other, and the list after them. -/
def visitAll (capacity : Nat) (l : Recency κ σ) :
    List (Visit κ σ ε) → List (Answer σ ε) × Recency κ σ
  | [] => ([], l)
  | v :: rest =>
    let (answer, l) := l.visit capacity v
    let (answers, l) := visitAll capacity l rest
    (answer :: answers, l)

end Recency

namespace Cache

/-! ### Entries in order -/

/-- The same entries, the last one used in front. -/
structure InOrder (order entries : List (κ × CacheEntry)) : Prop where
  perm : order.Perm entries
  descending : order.Pairwise fun a b => b.2.lastUsed < a.2.lastUsed

section InOrder

variable {order entries : List (κ × CacheEntry)} {key : κ} {now : Nat}

/-- The entry that was used longest ago is the last one, in whatever order the entries stand. -/
theorem InOrder.oldest (h : InOrder order entries) : oldest? entries = order.getLast? := by
  rcases List.eq_nil_or_concat' order with rfl | ⟨front, last, rfl⟩
  · obtain rfl : entries = [] := by simpa using h.perm.symm
    rfl
  · have hlast : last ∈ entries := h.perm.mem_iff.mp (by simp)
    obtain ⟨first, hfirst, hleast⟩ := exists_oldest hlast
    have hmem : first ∈ front ++ [last] := h.perm.mem_iff.mpr (mem_of_oldest? hfirst)
    obtain ⟨-, -, hbefore⟩ := List.pairwise_append.mp h.descending
    rw [hfirst, List.getLast?_concat]
    rcases List.mem_append.mp hmem with hfront | hsame
    · have hlt := hbefore first hfront last (List.mem_singleton_self last)
      have hle := hleast last hlast
      omega
    · rw [List.mem_singleton.mp hsame]

theorem InOrder.filter (h : InOrder order entries) (p : κ × CacheEntry → Bool) :
    InOrder (order.filter p) (entries.filter p) :=
  ⟨h.perm.filter p, h.descending.filter p⟩

theorem InOrder.nodup (h : InOrder order entries) (hkeys : (entries.map Prod.fst).Nodup) :
    (order.map Prod.fst).Nodup :=
  (h.perm.map Prod.fst).nodup_iff.mpr hkeys

/-- An entry that is used after all others comes in front. -/
theorem InOrder.cons (h : InOrder order entries) {e : κ × CacheEntry}
    {entries' : List (κ × CacheEntry)} (hperm : entries'.Perm (e :: entries))
    (hnow : ∀ f ∈ entries, f.2.lastUsed < e.2.lastUsed) :
    InOrder (e :: order) entries' where
  perm := (h.perm.cons e).trans hperm.symm
  descending := List.pairwise_cons.mpr ⟨fun f hf => hnow f (h.perm.mem_iff.mp hf), h.descending⟩

variable [DecidableEq κ]

/-- An entry whose key is used is as good as taken out and put back in front. -/
theorem perm_map_touch {e : CacheEntry} (hkeys : (entries.map Prod.fst).Nodup)
    (he : (key, e) ∈ entries) :
    (entries.map fun f => if f.1 = key then (f.1, { f.2 with lastUsed := now }) else f).Perm
      ((key, { e with lastUsed := now }) :: entries.filter fun f => !decide (f.1 = key)) := by
  induction entries with
  | nil => simp at he
  | cons a rest ih =>
      obtain ⟨hnew, hkeys⟩ := List.nodup_cons.mp hkeys
      by_cases ha : a.1 = key
      · have hothers : ∀ f ∈ rest, f.1 ≠ key := by
          intro f hf heq
          exact hnew (List.mem_map.mpr ⟨f, hf, heq.trans ha.symm⟩)
        have hsame : a = (key, e) := by
          rcases List.mem_cons.mp he with heq | hmem
          · exact heq.symm
          · exact absurd rfl (hothers _ hmem)
        subst hsame
        have hmap : (rest.map fun f =>
            if f.1 = key then (f.1, { f.2 with lastUsed := now }) else f) = rest := by
          conv => rhs; rw [← List.map_id rest]
          exact List.map_congr_left fun f hf => if_neg (hothers f hf)
        have hfilter : rest.filter (fun f => !decide (f.1 = key)) = rest :=
          List.filter_eq_self.mpr fun f hf => by simpa using hothers f hf
        simp [hmap, hfilter]
      · have hmem : (key, e) ∈ rest := by
          rcases List.mem_cons.mp he with heq | hmem
          · exact absurd (congrArg Prod.fst heq.symm) ha
          · exact hmem
        rw [List.map_cons, if_neg ha, List.filter_cons_of_pos (by simpa using ha)]
        exact ((ih hkeys hmem).cons a).trans (List.Perm.swap ..)

/-- Without the key of the last entry the others are left. -/
theorem filter_concat_eq {front : List (κ × CacheEntry)} {last : κ × CacheEntry}
    (hkeys : ((front ++ [last]).map Prod.fst).Nodup) :
    (front ++ [last]).filter (fun f => !decide (f.1 = last.1)) = front := by
  rw [List.map_append, List.nodup_append] at hkeys
  obtain ⟨-, -, hothers⟩ := hkeys
  have hfront : front.filter (fun f => !decide (f.1 = last.1)) = front := by
    apply List.filter_eq_self.mpr
    intro f hf
    have hne := hothers f.1 (List.mem_map_of_mem hf) last.1 (by simp)
    simpa using hne
  simp [List.filter_append, hfront]

end InOrder

/-! ### A cache and its list -/

/-- The key of an entry with what its slot holds. -/
def view (c : Cache κ σ) (e : κ × CacheEntry) : κ × Option (Made σ) :=
  (e.1, (c.slot e.2.slot).content)

/-- The entries in the order of their last use are the list, and time is past all of them. No slot
is locked, and those of a list are held. -/
structure Refines (c : Cache κ σ) (held : List Nat) (l : Recency κ σ) : Prop where
  sound : c.Sound
  free : c.Free
  holders : ∀ i, (c.slot i).holders = held.count i
  order : ∃ order, InOrder order c.entries ∧ order.map c.view = l.entries
  past : ∀ e ∈ c.entries, e.2.lastUsed < c.clock
  bounded : c.entries.length ≤ c.policy.capacity
  made : c.made = l.made
  evictions : c.evictions = l.evictions

theorem view_congr {c c' : Cache κ σ} (h : ∀ j, (c'.slot j).content = (c.slot j).content) :
    c'.view = c.view := by
  funext e
  rw [view, h, view]

theorem Sound.keys_nodup {c : Cache κ σ} (h : c.Sound) : (c.entries.map Prod.fst).Nodup := by
  simpa [places, Function.comp_def] using h.keys

theorem refines_start (policy : CachePolicy) : ({ policy } : Cache κ σ).Refines [] {} where
  sound := ⟨List.nodup_nil, List.nodup_nil, nofun⟩
  free _ := rfl
  holders _ := rfl
  order := ⟨[], ⟨.refl _, List.Pairwise.nil⟩, rfl⟩
  past := nofun
  bounded := Nat.zero_le _
  made := rfl
  evictions := rfl

namespace Refines

variable {c : Cache κ σ} {held : List Nat} {l : Recency κ σ}

theorem perm_keys (h : c.Refines held l) : (c.entries.map Prod.fst).Perm l.keys := by
  obtain ⟨order, hin, hview⟩ := h.order
  rw [Recency.keys, ← hview, List.map_map]
  exact (hin.perm.map Prod.fst).symm

theorem length_eq (h : c.Refines held l) : c.entries.length = l.entries.length := by
  simpa [Recency.keys] using h.perm_keys.length_eq

theorem keys_nodup (h : c.Refines held l) : l.keys.Nodup :=
  h.perm_keys.nodup_iff.mp h.sound.keys_nodup

/-- Nobody holds a slot. -/
theorem isIdle (h : c.Refines [] l) (e : CacheEntry) : c.isIdle e = true :=
  decide_eq_true (h.holders e.slot)

/-- So the entry to evict is the last one of the order, however the entries stand. -/
theorem victim (h : c.Refines [] l) {order entries : List (κ × CacheEntry)}
    (hin : InOrder order entries) : ({ c with entries } : Cache κ σ).victim? = order.getLast? := by
  have hidle : ∀ e ∈ entries, ({ c with entries } : Cache κ σ).isIdle e.2 = true :=
    fun e _ => h.isIdle e.2
  rw [victim?, victimOf?, List.filter_eq_self.mpr hidle, hin.oldest]

theorem victim_eq (h : c.Refines [] l) {entries : List (κ × CacheEntry)}
    (hperm : entries.Perm c.entries) :
    ({ c with entries } : Cache κ σ).victim?.map Prod.fst = l.keys.getLast? := by
  obtain ⟨order, hin, hview⟩ := h.order
  have hkeys : l.keys = order.map Prod.fst := by
    rw [Recency.keys, ← hview, List.map_map]
    rfl
  rw [h.victim ⟨hin.perm.trans hperm.symm, hin.descending⟩, hkeys, List.getLast?_map]

theorem tick (h : c.Refines [] l) : c.tick.2.Refines [] l where
  sound := h.sound.of_sublist (.refl _) (Nat.le_refl _)
  free := h.free
  holders := h.holders
  order := h.order
  past e he := Nat.lt_succ_of_lt (h.past e he)
  bounded := h.bounded
  made := h.made
  evictions := h.evictions

/-- A key whose slot has been taken hold of at the latest time is in front. -/
theorem of_acquires {c' : Cache κ σ} {l' : Recency κ σ} {key : κ} {i now : Nat}
    {order : List (κ × CacheEntry)} (h : c.Refines [] l) (hacquires : Acquires c key i c')
    (horder : InOrder ((key, ⟨i, now⟩) :: order) c'.entries) (hview : order.map c.view = l'.entries)
    (hclock : now < c'.clock) (hbounded : c'.entries.length ≤ c.policy.capacity)
    (hmade : c.made = l'.made) (hevictions : c'.evictions = l'.evictions) :
    c'.Refines [i] (l'.put key (c.slot i).content) where
  sound := hacquires.sound
  free j := (hacquires.locked j).trans (h.free j)
  holders j := by
    rw [hacquires.holders, h.holders]
    simp
  order := by
    refine ⟨_, horder, ?_⟩
    rw [view_congr hacquires.content, List.map_cons, hview]
    rfl
  past e he := by
    rcases List.mem_cons.mp (horder.perm.mem_iff.mpr he) with rfl | he
    · exact hclock
    · exact Nat.lt_trans ((List.pairwise_cons.mp horder.descending).1 e he) hclock
  bounded := hacquires.policy ▸ hbounded
  made := hacquires.made.trans hmade
  evictions := hevictions

variable [DecidableEq κ] {key : κ}

theorem exists_evict (h : c.Refines [] l) (hne : c.entries ≠ []) :
    ∃ c', c.evict? = some c' ∧
      c'.Refines [] { l with entries := l.entries.dropLast, evictions := l.evictions + 1 } ∧
      c'.entries.length + 1 = c.entries.length ∧ c'.clock = c.clock ∧ c'.entries ⊆ c.entries := by
  obtain ⟨order, hin, hview⟩ := h.order
  rcases List.eq_nil_or_concat' order with rfl | ⟨front, last, rfl⟩
  · exact absurd (by simpa using hin.perm.symm) hne
  · have hvictim : c.victim? = some last := (h.victim hin).trans List.getLast?_concat
    have hevict : c.evict? =
        some { c.removeEntry last.1 with evictions := c.evictions + 1 } :=
      congrArg (Option.map _) hvictim
    have hfront : InOrder front (c.removeEntry last.1).entries := by
      have hrest := hin.filter fun e => !decide (e.1 = last.1)
      rwa [filter_concat_eq (hin.nodup h.sound.keys_nodup)] at hrest
    have hlength : (c.removeEntry last.1).entries.length + 1 = c.entries.length := by
      rw [← hin.perm.length_eq, ← hfront.perm.length_eq]
      simp
    have htrims := trims_evict h.sound hevict
    refine ⟨_, hevict, ?_, hlength, rfl, List.filter_subset_self _⟩
    constructor
    · exact htrims.sound h.sound
    · exact h.free
    · exact h.holders
    · refine ⟨front, hfront, ?_⟩
      rw [← hview, List.map_append, List.map_singleton, List.dropLast_concat]
      rfl
    · exact fun e he => h.past e (List.mem_of_mem_filter he)
    · have hbounded := h.bounded
      exact Nat.le_trans (Nat.le_of_succ_le (Nat.le_of_eq hlength)) hbounded
    · exact h.made
    · exact congrArg (· + 1) h.evictions

theorem makeRoom_of_lt {fuel : Nat} (h : c.entries.length < c.policy.capacity) :
    makeRoom fuel c = c := by
  cases fuel with
  | zero => rfl
  | succ fuel => rw [Cache.makeRoom, if_neg (Nat.not_le.mpr h)]

/-- A full cache evicts one entry, that of the last key. -/
theorem makeRoom (h : c.Refines [] l) :
    (c.makeRoom c.entries.length).Refines [] (l.room c.policy.capacity) ∧
      (c.makeRoom c.entries.length).entries.length < c.policy.capacity ∧
      (c.makeRoom c.entries.length).clock = c.clock ∧
      (c.makeRoom c.entries.length).entries ⊆ c.entries := by
  by_cases hroom : c.entries.length < c.policy.capacity
  · have hlist : l.room c.policy.capacity = l := by
      rw [Recency.room, if_pos (h.length_eq ▸ hroom)]
    rw [makeRoom_of_lt hroom, hlist]
    exact ⟨h, hroom, rfl, List.Subset.refl _⟩
  · have hpos : 0 < c.entries.length :=
      Nat.lt_of_lt_of_le (capacity_pos c.policy) (Nat.not_lt.mp hroom)
    obtain ⟨c', hevict, hrefines, hlength, hclock, hentries⟩ :=
      h.exists_evict (List.ne_nil_of_length_pos hpos)
    have hpolicy : c'.policy = c.policy := (trims_evict h.sound hevict).policy
    have hroom' : c'.entries.length < c'.policy.capacity := by
      have hbounded := h.bounded
      rw [hpolicy]
      omega
    have hmake : c.makeRoom c.entries.length = c' := by
      obtain ⟨fuel, hfuel⟩ := Nat.exists_eq_succ_of_ne_zero (Nat.ne_of_gt hpos)
      rw [hfuel, Cache.makeRoom, if_pos (Nat.not_lt.mp hroom), hevict]
      exact makeRoom_of_lt hroom'
    have hlist : l.room c.policy.capacity =
        { l with entries := l.entries.dropLast, evictions := l.evictions + 1 } := by
      rw [Recency.room, if_neg (h.length_eq ▸ hroom)]
    rw [hmake, hlist]
    exact ⟨hrefines, hpolicy ▸ hroom', hclock, hentries⟩

/-! ### Fetching a key -/

theorem take_of_mem {value : Option (Made σ)} {capacity : Nat} (hkeys : l.keys.Nodup)
    (h : (key, value) ∈ l.entries) : l.take capacity key = (value, l.remove fun k => k = key) := by
  have hfind : l.entries.find? (fun e => e.1 = key) = some (key, value) := by
    cases hfind : l.entries.find? (fun e => e.1 = key) with
    | none => simpa using List.find?_eq_none.mp hfind _ h
    | some e =>
        have hkey : e.1 = key := by simpa using List.find?_some hfind
        exact congrArg some
          (List.inj_on_of_nodup_map hkeys (List.mem_of_find?_eq_some hfind) h hkey)
  rw [Recency.take, hfind]

theorem take_of_notMem {capacity : Nat} (h : key ∉ l.keys) :
    l.take capacity key = (none, l.room capacity) := by
  have hfind : l.entries.find? (fun e => e.1 = key) = none := by
    apply List.find?_eq_none.mpr
    intro e he
    have hne : e.1 ≠ key := fun heq => h (heq ▸ List.mem_map_of_mem he)
    simpa using hne
  rw [Recency.take, hfind]

/-- Whoever takes hold of the slot of a key puts the key in front with its value, and sees that. -/
theorem acquire (h : c.Refines [] l) {now i : Nat} {c' : Cache κ σ}
    (hnow : ∀ e ∈ c.entries, e.2.lastUsed < now) (hclock : now < c.clock)
    (hacquire : c.acquire key now = (i, c')) :
    c'.Refines [i] ((l.take c.policy.capacity key).2.put key (l.take c.policy.capacity key).1) ∧
      (c.slot i).content = (l.take c.policy.capacity key).1 := by
  have hacquires := acquires_of_acquire h.sound hacquire
  unfold Cache.acquire at hacquire
  split at hacquire
  · next e hentry =>
      obtain ⟨rfl, rfl⟩ := Prod.mk.inj hacquire
      have hmem := mem_entries_of_entry hentry
      obtain ⟨order, hin, hview⟩ := h.order
      have hvalue : (key, (c.slot e.slot).content) ∈ l.entries := by
        rw [← hview]
        exact List.mem_map_of_mem (f := c.view) (hin.perm.mem_iff.mpr hmem)
      rw [take_of_mem h.keys_nodup hvalue]
      refine ⟨?_, rfl⟩
      apply h.of_acquires hacquires
      · exact (hin.filter fun f => !decide (f.1 = key)).cons
          (perm_map_touch h.sound.keys_nodup hmem) fun f hf => hnow f (List.mem_of_mem_filter hf)
      · rw [Recency.remove, ← hview, List.filter_map]
        rfl
      · exact hclock
      · exact Nat.le_trans (Nat.le_of_eq (List.length_map ..)) h.bounded
      · exact h.made
      · exact h.evictions
  · next hentry =>
      obtain ⟨rfl, rfl⟩ := Prod.mk.inj hacquire
      have hnew : key ∉ l.keys := by
        intro hkey
        obtain ⟨e, he, heq⟩ := List.mem_map.mp (h.perm_keys.mem_iff.mpr hkey)
        exact entry?_eq_none_iff.mp hentry e.2.slot (List.mem_map.mpr ⟨e, he, by rw [heq]⟩)
      obtain ⟨hroom, hlt, hclock', hentries⟩ := h.makeRoom
      have htrims := trims_makeRoom h.sound
      have hfresh : (c.slot (c.makeRoom c.entries.length).slots.length).content = none := by
        rw [slot_eq_default (Nat.le_of_eq (by rw [htrims.slots]))]
      have hview' : (c.makeRoom c.entries.length).view = c.view :=
        view_congr fun j => by rw [slot, htrims.slots, slot]
      obtain ⟨order, hin, hview⟩ := hroom.order
      rw [take_of_notMem hnew]
      refine ⟨?_, hfresh⟩
      rw [← hfresh]
      apply h.of_acquires hacquires
      · exact hin.cons (List.perm_append_singleton ..) fun f hf => hnow f (hentries hf)
      · rw [← hview', hview]
      · exact hclock'.symm ▸ hclock
      · exact Nat.le_trans (Nat.le_of_eq List.length_append) hlt
      · exact htrims.made ▸ hroom.made
      · exact hroom.evictions

end Refines

/-- A slot that one call holds gets a content and is left, and nothing else has changed. -/
structure Leaves (c : Cache κ σ) (i : Nat) (content : Option (Made σ)) (c' : Cache κ σ) : Prop where
  entries : c'.entries = c.entries
  clock : c'.clock = c.clock
  policy : c'.policy = c.policy
  evictions : c'.evictions = c.evictions
  slots : c'.slots.length = c.slots.length
  holders : ∀ j, (c'.slot j).holders = (c.slot j).holders - [i].count j
  free : c.Free → c'.Free
  content : ∀ j, (c'.slot j).content = if i = j then content else (c.slot j).content

section Leaves

variable {c c' : Cache κ σ} {i : Nat}

/-- Between locking a slot and leaving it a call only counts. -/
structure Counts (c : Cache κ σ) (i : Nat) (c' : Cache κ σ) : Prop where
  entries : c'.entries = c.entries
  clock : c'.clock = c.clock
  policy : c'.policy = c.policy
  evictions : c'.evictions = c.evictions
  slots : c'.slots = (c.lock i).slots

theorem counts_count (c : Cache κ σ) (i : Nat) (found : Bool) :
    Counts c i ((c.lock i).count found) := by
  cases found <;> exact ⟨rfl, rfl, rfl, rfl, rfl⟩

theorem Counts.slot_eq (h : Counts c i c') (j : Nat) : c'.slot j = (c.lock i).slot j := by
  rw [slot, h.slots, slot]

/-- A call may leave the slot as it was. -/
theorem Counts.leaves (h : Counts c i c') : Leaves c i (c.slot i).content (c'.leave i) where
  entries := h.entries
  clock := h.clock
  policy := h.policy
  evictions := h.evictions
  slots := by simp [leave, unlock, drop, h.slots]
  holders j := by simp [leave, h.slot_eq]
  free hf j := by
    by_cases hij : i = j
    · simp [leave, hij]
    · simp [leave, hij, h.slot_eq, lock, slot_modifySlot, hf j]
  content j := by
    by_cases hij : i = j
    · simp [leave, h.slot_eq, hij]
    · simp [leave, h.slot_eq, hij]

/-- A call may fill the slot. -/
theorem Counts.leaves_fill (h : Counts c i c') (hi : i < c.slots.length) (x : Option (Made σ)) :
    Leaves c i x ((c'.fill i x).leave i) where
  entries := h.entries
  clock := h.clock
  policy := h.policy
  evictions := h.evictions
  slots := by simp [leave, unlock, drop, fill, h.slots]
  holders j := by simp [leave, h.slot_eq]
  free hf j := by
    by_cases hij : i = j
    · simp [leave, hij]
    · simp [leave, hij, h.slot_eq, lock, slot_modifySlot, hf j]
  content j := by
    have hrange : i < c'.slots.length := by simpa [h.slots] using hi
    simp [leave, content_fill hrange, h.slot_eq]

end Leaves

namespace Refines

variable {c c' : Cache κ σ} {l : Recency κ σ} {key : κ} {i : Nat} {x y : Option (Made σ)}

/-- The key in front gets a value, and its slot is no longer held. -/
theorem leave {made : Nat} (h : c.Refines [i] (l.put key x)) (hi : (key, i) ∈ c.places)
    (hleaves : Leaves c i y c') (hmade : c'.made = made) :
    c'.Refines [] { l.put key y with made } where
  sound := h.sound.of_sublist (by rw [places, hleaves.entries, places])
    (Nat.le_of_eq hleaves.slots.symm)
  free := hleaves.free h.free
  holders j := by
    rw [hleaves.holders, h.holders]
    simp
  order := by
    obtain ⟨order, hin, hview⟩ := h.order
    obtain ⟨e, rest, rfl, he, hrest⟩ := List.map_eq_cons_iff.mp hview
    have hplace : ∀ f ∈ e :: rest, (f.1, f.2.slot) ∈ c.places := fun f hf =>
      List.mem_map.mpr ⟨f, hin.perm.mem_iff.mp hf, rfl⟩
    have hkey : e.1 = key := congrArg Prod.fst he
    have hslot : e.2.slot = i := h.sound.slot_eq (hkey ▸ hplace e List.mem_cons_self) hi
    have hothers : ∀ f ∈ rest, c'.view f = c.view f := by
      intro f hf
      have hne : i ≠ f.2.slot := by
        rintro rfl
        have hsame : f.1 = key :=
          h.sound.key_eq (hplace f (List.mem_cons_of_mem _ hf)) hi
        have hnodup := hin.nodup h.sound.keys_nodup
        exact (List.nodup_cons.mp hnodup).1 (List.mem_map.mpr ⟨f, hf, hsame.trans hkey.symm⟩)
      rw [view, hleaves.content, if_neg hne, view]
    refine ⟨e :: rest, hleaves.entries ▸ hin, ?_⟩
    rw [List.map_cons, List.map_congr_left hothers, hrest, view, hleaves.content,
      if_pos hslot.symm, hkey]
    rfl
  past := by
    rw [hleaves.entries, hleaves.clock]
    exact h.past
  bounded := by
    rw [hleaves.entries, hleaves.policy]
    exact h.bounded
  made := hmade
  evictions := hleaves.evictions.trans h.evictions

/-- Keys that are invalidated go, for nobody holds a slot. -/
theorem exists_invalidate (h : c.Refines [] l) (matching : κ → Bool) :
    ∃ c', c.invalidate? matching = some c' ∧ c'.Refines [] (l.remove matching) ∧
      c'.policy = c.policy := by
  have hbusy : c.entries.filter (fun e => matching e.1 && !c.isIdle e.2) = [] := by
    apply List.filter_eq_nil_iff.mpr
    intro e he
    simp [h.isIdle e.2]
  have hkept : c.entries.filter (fun e => !matching e.1 || !c.isIdle e.2) =
      c.entries.filter fun e => !matching e.1 := by
    apply List.filter_congr
    intro e he
    simp [h.isIdle e.2]
  refine ⟨{ c with entries := c.entries.filter fun e => !matching e.1 }, ?_, ?_, rfl⟩
  · simp [invalidate?, sweep, sweepOf, hbusy, hkept, emptyAll?]
  · obtain ⟨order, hin, hview⟩ := h.order
    constructor
    · exact h.sound.of_sublist (List.filter_sublist.map _) (Nat.le_refl _)
    · exact h.free
    · exact h.holders
    · refine ⟨_, hin.filter fun e => !matching e.1, ?_⟩
      rw [Recency.remove, ← hview, List.filter_map]
      rfl
    · exact fun e he => h.past e (List.mem_of_mem_filter he)
    · exact Nat.le_trans (List.length_filter_le ..) h.bounded
    · exact h.made
    · exact h.evictions

end Refines

variable [DecidableEq κ] {c : Cache κ σ} {l : Recency κ σ}

namespace Refines

/-- A call that fetches a key gets what the list gives, and leaves the cache as the list is then. -/
theorem exists_getOrBuild (h : c.Refines [] l) (hon : c.policy.enabled = true) (key : κ)
    (result : Except ε σ) :
    ∃ c', c.getOrBuild? key (fun c => some (result, c)) =
        some ((l.fetch c.policy.capacity key result).1, c') ∧
      c'.Refines [] (l.fetch c.policy.capacity key result).2 ∧ c'.policy = c.policy := by
  -- the clock ticks before the slot is looked up
  have hticked := h.tick
  obtain ⟨⟨i, held⟩, hacquire⟩ : ∃ r, c.tick.2.acquire key c.tick.1 = r := ⟨_, rfl⟩
  obtain ⟨hfront, hcontent⟩ := hticked.acquire h.past (Nat.lt_succ_self _) hacquire
  have hacquires := acquires_of_acquire hticked.sound hacquire
  have hrange : i < held.slots.length := hfront.sound.inRange _ hacquires.mem
  have hlock : held.lock? i = some (held.lock i) := hfront.free.lock_eq i
  obtain ⟨⟨found, rest⟩, htake⟩ : ∃ taken, l.take c.policy.capacity key = taken := ⟨_, rfl⟩
  have htake' : l.take c.tick.2.policy.capacity key = (found, rest) := htake
  rw [htake'] at hfront hcontent
  have hfound : (held.slot i).content = found := (hacquires.content i).trans hcontent
  have hlocked : ((held.lock i).slot i).content = found := content_lock.trans hfound
  have hmade : held.made = rest.made := hfront.made
  unfold Cache.getOrBuild? Recency.fetch
  rw [htake]
  cases found with
  | some m =>
      have hleaves := (counts_count held i true).leaves
      rw [hfound] at hleaves
      refine ⟨((held.lock i).count true).leave i, ?_, ?_, hacquires.policy⟩
      · simp [start?_hit hon hacquire hlock hlocked]
      · exact hfront.leave hacquires.mem hleaves hmade
  | none =>
      have hcounts := counts_count held i false
      have hstart := start?_miss hon hacquire hlock hlocked
      cases result with
      | ok v =>
          have hbuilt : Counts held i ((held.lock i).count false |>.countBuild.make v).2 :=
            ⟨hcounts.entries, hcounts.clock, hcounts.policy, hcounts.evictions, hcounts.slots⟩
          have hfinish : finish (some i) (.ok v : Except ε σ) ((held.lock i).count false) =
              (.ok ⟨rest.made, v⟩, ((((held.lock i).count false).countBuild.make v).2.fill i
                (some ⟨rest.made, v⟩)).leave i) := by
            rw [← hmade]
            rfl
          refine ⟨((((held.lock i).count false).countBuild.make v).2.fill i
            (some ⟨rest.made, v⟩)).leave i, ?_, ?_, hacquires.policy⟩
          · rw [hstart]
            exact congrArg some hfinish
          · exact hfront.leave hacquires.mem (hbuilt.leaves_fill hrange _)
              (congrArg (· + 1) hmade)
      | error e =>
          have hleaves := hcounts.leaves
          rw [hfound] at hleaves
          refine ⟨((held.lock i).count false).leave i, ?_, ?_, hacquires.policy⟩
          · rw [hstart]
            rfl
          · exact hfront.leave hacquires.mem hleaves hmade

end Refines

end Cache

/-! ### Visits one after the other -/

namespace Visit

variable [DecidableEq κ] {c : Cache κ σ} {l : Recency κ σ}

/-- Makes a visit. -/
def run? (c : Cache κ σ) : Visit κ σ ε → Option (Answer σ ε × Cache κ σ)
  | .fetch key result =>
    (c.getOrBuild? key fun c => some (result, c)).map fun r => (.ofResult r.1, r.2)
  | .invalidate matching => (c.invalidate? matching).map fun c => (.done, c)

/-- Makes visits one after the other. -/
def runAll? (c : Cache κ σ) : List (Visit κ σ ε) → Option (List (Answer σ ε) × Cache κ σ)
  | [] => some ([], c)
  | v :: rest => do
    let (answer, c) ← v.run? c
    let (answers, c) ← runAll? c rest
    return (answer :: answers, c)

theorem exists_run (h : c.Refines [] l) (hon : c.policy.enabled = true) (v : Visit κ σ ε) :
    ∃ c', v.run? c = some ((l.visit c.policy.capacity v).1, c') ∧
      c'.Refines [] (l.visit c.policy.capacity v).2 ∧ c'.policy = c.policy := by
  cases v with
  | fetch key result =>
      obtain ⟨c', hrun, hrefines, hpolicy⟩ := h.exists_getOrBuild hon key result
      exact ⟨c', by rw [ run?, hrun]; rfl, hrefines, hpolicy⟩
  | invalidate matching =>
      obtain ⟨c', hrun, hrefines, hpolicy⟩ := h.exists_invalidate matching
      exact ⟨c', by rw [ run?, hrun]; rfl, hrefines, hpolicy⟩

/-- A cache that starts as a list says goes on as the list does, whatever is visited. -/
theorem exists_runAll (h : c.Refines [] l) (hon : c.policy.enabled = true)
    (visits : List (Visit κ σ ε)) :
    ∃ c', runAll? c visits = some ((l.visitAll c.policy.capacity visits).1, c') ∧
      c'.Refines [] (l.visitAll c.policy.capacity visits).2 ∧ c'.policy = c.policy := by
  induction visits generalizing c l with
  | nil => exact ⟨c, rfl, h, rfl⟩
  | cons v rest ih =>
      obtain ⟨c₁, hrun, hrefines, hpolicy⟩ := exists_run h hon v
      obtain ⟨c', hrest, hrefines', hpolicy'⟩ := ih hrefines (hpolicy ▸ hon)
      rw [hpolicy] at hrest hrefines'
      refine ⟨c', ?_, hrefines', hpolicy'.trans hpolicy⟩
      simp [ runAll?, hrun, hrest, Recency.visitAll]

end Visit

end CriteriaQuery
