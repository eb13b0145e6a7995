import CriteriaQuery.Proofs.Cache.Metrics

/-!
# Look-ups that are counted

In a cache that keeps values every call for the value of a key is counted once, when or after it
reads the slot of its key: as a hit if it gives a value that it has not made, and as a miss
otherwise. One kind of call is not counted, because it reads no slot: a call that looks for a value
without making one and finds no entry for its key.

## Implementation notes

What has happened in a call is told by how far the call is. The counts of a run are the sums of
what has happened in its calls.
-/

namespace CriteriaQuery

variable {κ σ ε : Type}

/-! ### What is told of one call -/

/-- Whether a call looks into the slot of its key. -/
def Happening.isRead (x : Happening κ σ ε) : Bool := x.isHit || x.isMiss

theorem countP_isRead (hs : List (Happening κ σ ε)) :
    hs.countP Happening.isRead = hs.countP Happening.isHit + hs.countP Happening.isMiss := by
  induction hs with
  | nil => rfl
  | cons x hs ih =>
      rw [List.countP_cons, List.countP_cons, List.countP_cons, ih]
      cases x with
      | reads key found =>
          cases found with
          | none => exact Nat.add_assoc ..
          | some m => exact Nat.add_right_comm ..
      | _ => rfl

namespace Phase

/-- Whether a call has given its answer. -/
def isEnded : Phase σ ε → Bool
  | .ended _ => true
  | _ => false

/-- Whether a call has looked into its slot and counted that, and has yet to end. -/
def isServing : Phase σ ε → Bool
  | .building _ => true
  | .served _ _ _ => true
  | .leaving _ _ _ => true
  | _ => false

/-- Whether a call gives a value, and has counted its look-up. -/
def givesValue (phase : Phase σ ε) : Bool :=
  match phase.answer? with
  | some (.value _) => !phase.owes true
  | _ => false

/-- Whether a call has no look-up to count. -/
def OwesNothing (phase : Phase σ ε) : Prop := ∀ found, phase.owes found = false

/-- What has happened in a call for the value of a key, by how far it is: how often it has found a
value in the slot, how often it has found none, and how often it has started to make one. -/
inductive Tells : Phase σ ε → Nat → Nat → Nat → Prop
  | unread {phase} (h : phase.Unread) : Tells phase 0 0 0
  | building (slot) : Tells (.building slot) 0 1 1
  | found {phase m} (h : phase.answer? = some (.value m)) : Tells phase 1 0 0
  | made {phase m} (h : phase.answer? = some (.value m)) (howes : phase.OwesNothing) :
    Tells phase 0 1 1
  | failed {phase e} (h : phase.answer? = some (.error e)) (howes : phase.OwesNothing) :
    Tells phase 0 1 1
  | empty {phase} (h : phase.answer? = some .nothing) : Tells phase 0 1 0
  | absent : Tells (.ended .nothing) 0 0 0

variable {phase phase' : Phase σ ε} {hits misses starts : Nat}

theorem Tells.of_unread (h : phase.Tells hits misses starts) (hunread : phase.Unread) :
    hits = 0 ∧ misses = 0 ∧ starts = 0 := by
  have hnone := answer?_eq_none hunread
  cases h with
  | unread => exact ⟨rfl, rfl, rfl⟩
  | building => exact hunread.elim
  | absent => exact hunread.elim
  | _ => simp_all

theorem Tells.of_building {slot : Option Nat}
    (h : (.building slot : Phase σ ε).Tells hits misses starts) :
    hits = 0 ∧ misses = 1 ∧ starts = 1 := by
  cases h with
  | unread h => exact h.elim
  | building => exact ⟨rfl, rfl, rfl⟩
  | found h => nomatch h
  | made h => nomatch h
  | failed h => nomatch h
  | empty h => nomatch h

/-- A call that has looked into its slot has found a value there or none. -/
theorem Tells.of_served (h : phase.Tells hits misses starts) (hread : ¬ phase.Unread)
    (hended : phase.isEnded = false) : hits + misses = 1 := by
  cases h with
  | unread h => exact absurd h hread
  | absent => nomatch hended
  | _ => rfl

/-- What a call owes is the kind of its answer. -/
theorem owes_eq {answer : Answer σ ε} (h : phase.answer? = some answer) (found : Bool) :
    phase.owes found = true → answer.isValue = found := by
  cases phase with
  | looked =>
      obtain rfl := Option.some.inj h
      exact beq_iff_eq.mp
  | uncounted =>
      obtain rfl := Option.some.inj h
      exact beq_iff_eq.mp
  | _ => nofun

/-- A value was found exactly if it is given and was not made, or has yet to be counted. -/
theorem Tells.hits_eq (h : phase.Tells hits misses starts) :
    hits = (phase.givesValue && starts == 0).toNat + (phase.owes true).toNat := by
  cases h with
  | unread h =>
      cases phase with
      | begun => rfl
      | timed => rfl
      | waiting => rfl
      | _ => exact h.elim
  | building => rfl
  | absent => rfl
  | found h => cases howes : phase.owes true <;> simp [givesValue, h, howes]
  | made h howes => simp [givesValue, howes true]
  | failed h howes => simp [givesValue, howes true]
  | empty h =>
      have howes : phase.owes true = false := by
        by_contra howes
        nomatch owes_eq h true (by simpa using howes)
      simp [givesValue, h, howes]

/-- A call that has ended or looked into its slot has done so once, or has ended without. -/
theorem Tells.reads_eq (h : phase.Tells hits misses starts) :
    hits + misses + (phase.isEnded && hits + misses == 0).toNat =
      phase.isEnded.toNat + phase.isServing.toNat +
        ((phase.owes true).toNat + (phase.owes false).toNat) := by
  have hserved : ∀ answer, phase.answer? = some answer → phase.isEnded.toNat +
      phase.isServing.toNat + ((phase.owes true).toNat + (phase.owes false).toNat) = 1 := by
    intro answer hanswer
    cases phase with
    | served => rfl
    | looked _ answer => cases hvalue : answer.isValue <;> simp [isEnded, isServing, owes, hvalue]
    | uncounted _ answer =>
        cases hvalue : answer.isValue <;> simp [isEnded, isServing, owes, hvalue]
    | leaving => rfl
    | ended => rfl
    | _ => simp [answer?] at hanswer
  cases h with
  | @unread _ h =>
      cases phase with
      | begun => rfl
      | timed => rfl
      | waiting => rfl
      | _ => exact h.elim
  | building => rfl
  | absent => rfl
  | found h => simp [hserved _ h]
  | made h => simp [hserved _ h]
  | failed h => simp [hserved _ h]
  | empty h => simp [hserved _ h]

/-- A call that goes on with its answer tells the same. -/
theorem Tells.of_answer {answer : Answer σ ε} (h : phase.Tells hits misses starts)
    (hanswer : phase.answer? = some answer) (hended : phase.isEnded = false)
    (hanswer' : phase'.answer? = some answer) (howes : phase.OwesNothing → phase'.OwesNothing) :
    phase'.Tells hits misses starts := by
  cases h with
  | unread h => rw [answer?_eq_none h] at hanswer; nomatch hanswer
  | building => nomatch hanswer
  | found h => exact .found (hanswer'.trans (hanswer.symm.trans h))
  | made h hnothing => exact .made (hanswer'.trans (hanswer.symm.trans h)) (howes hnothing)
  | failed h hnothing => exact .failed (hanswer'.trans (hanswer.symm.trans h)) (howes hnothing)
  | empty h => exact .empty (hanswer'.trans (hanswer.symm.trans h))
  | absent => nomatch hended

end Phase

namespace Cache

open Happening (countP_map_forgets)

variable [DecidableEq κ] {c c' : Cache κ σ} {request : Request κ} {phase phase' : Phase σ ε}
  {hs : List (Happening κ σ ε)} {key : κ} {hits misses starts : Nat} {late : List Nat}

/-- What a section adds to what is told of its call. -/
theorem Section.tells (hon : c.policy.enabled = true) (hkey : request.key? = some key)
    (hrest : phase.rest = []) (h : phase.Tells hits misses starts)
    (hsection : Section late request phase c hs phase' c') :
    phase'.Tells (hits + hs.countP Happening.isHit) (misses + hs.countP Happening.isMiss)
      (starts + hs.countP Happening.isStart) := by
  cases hsection with
  | bypass hoff => exact absurd hon (by simp [hoff])
  | tick =>
      obtain ⟨rfl, rfl, rfl⟩ := h.of_unread trivial
      exact .unread trivial
  | acquire =>
      obtain ⟨rfl, rfl, rfl⟩ := h.of_unread trivial
      -- a key may be forgotten where room is made, which is not counted
      rw [countP_map_forgets fun _ => rfl, countP_map_forgets fun _ => rfl,
        countP_map_forgets fun _ => rfl]
      exact .unread trivial
  | hit =>
      obtain ⟨rfl, rfl, rfl⟩ := h.of_unread trivial
      exact .found rfl
  | miss =>
      obtain ⟨rfl, rfl, rfl⟩ := h.of_unread trivial
      exact .building _
  | land =>
      obtain ⟨rfl, rfl, rfl⟩ := h.of_building
      exact .made rfl fun _ => rfl
  | fail =>
      obtain ⟨rfl, rfl, rfl⟩ := h.of_building
      exact .failed rfl fun _ => rfl
  | landUnkept =>
      obtain ⟨rfl, rfl, rfl⟩ := h.of_building
      exact .made rfl fun _ => rfl
  | failUnkept =>
      obtain ⟨rfl, rfl, rfl⟩ := h.of_building
      exact .failed rfl fun _ => rfl
  | absent =>
      obtain ⟨rfl, rfl, rfl⟩ := h.of_unread trivial
      exact .absent
  | find =>
      obtain ⟨rfl, rfl, rfl⟩ := h.of_unread trivial
      exact .unread trivial
  | @look _ i _ c' =>
      obtain ⟨rfl, rfl, rfl⟩ := h.of_unread trivial
      cases hcontent : (c'.slot i).content with
      | none => exact .empty rfl
      | some m => exact .found rfl
  | sweep => nomatch hkey
  | empty => nomatch hkey
  | release => exact h.of_answer rfl rfl rfl id
  | count => exact h.of_answer rfl rfl rfl fun _ _ => rfl
  | unlock => exact h.of_answer rfl rfl rfl fun _ _ => rfl
  | @drop _ i rest =>
      obtain rfl : rest = [] := hrest
      exact h.of_answer rfl rfl rfl fun _ _ => rfl

omit [DecidableEq κ] in
theorem isRead_iff {x : Happening κ σ ε} : x.isRead = true ↔ ∃ key found, x = .reads key found := by
  cases x with
  | reads key found => cases found <;> simp [Happening.isRead, Happening.isHit, Happening.isMiss]
  | _ => simp [Happening.isRead, Happening.isHit, Happening.isMiss]

/-- A call ends without a look into a slot where it finds no entry, and nowhere else. -/
theorem Section.of_unlooked (hon : c.policy.enabled = true) (hkey : request.key? = some key)
    (h : phase.Tells 0 0 starts) (hended : phase'.isEnded = true)
    (hsection : Section late request phase c hs phase' c') :
    request = .peek key ∧ phase = .begun ∧ c.entry? key = none ∧ phase' = .ended .nothing ∧
      hs = [] := by
  cases hsection with
  | @absent key' _ hnone =>
      obtain rfl : key' = key := Option.some.inj hkey
      have hfind : c.find? key' = none := hnone.resolve_left (by simp [hon])
      exact ⟨rfl, rfl, Option.map_eq_none_iff.mp hfind, rfl, rfl⟩
  | landUnkept => nomatch h.of_building.2.1
  | failUnkept => nomatch h.of_building.2.1
  | sweep => nomatch hkey
  | drop => nomatch h.of_served id rfl
  | _ => nomatch hended

/-- A call that has ended does not go on. -/
theorem Section.not_ended {answer : Answer σ ε}
    (hsection : Section late request (.ended answer) c hs phase' c') : False := nomatch hsection

/-- Only calls for the value of a key read a slot. -/
theorem Section.reads_eq_zero (hkey : request.key? = none)
    (hsection : Section late request phase c hs phase' c') : hs.countP Happening.isRead = 0 := by
  apply List.countP_eq_zero.mpr
  intro x hx hread
  obtain ⟨key, found, rfl⟩ := isRead_iff.mp hread
  exact absurd (hkey.symm.trans (hsection.of_reads hx).1) nofun

/-- Only calls for the value of a key owe anything. -/
theorem Section.owesNothing (hkey : request.key? = none) (howes : phase.OwesNothing)
    (hsection : Section late request phase c hs phase' c') : phase'.OwesNothing := by
  cases hsection with
  | look => nomatch hkey
  | release => exact howes
  | sweep => exact fun found => Phase.owes_next found _ _
  | drop => exact fun found => Phase.owes_next found _ _
  | _ => exact fun _ => rfl

end Cache

/-- Whether a call is for the value of a key. -/
def Call.isLookup (call : Call κ σ ε) : Bool := call.request.key?.isSome

namespace Shared

variable {s t : Shared κ σ ε} {h es : List (Event κ σ ε)} {policy : CachePolicy} {j k : Nat}
  {call : Call κ σ ε} {key : κ}

/-! ### What has happened in a call -/

/-- What has happened in a call. -/
def ofCall (h : List (Event κ σ ε)) (j : Nat) : List (Happening κ σ ε) :=
  (h.filter fun e => e.1 = j).map Prod.snd

@[simp] theorem ofCall_append (h es : List (Event κ σ ε)) (j : Nat) :
    ofCall (h ++ es) j = ofCall h j ++ ofCall es j := by
  simp [ofCall]

@[simp] theorem ofCall_map (hs : List (Happening κ σ ε)) (j k : Nat) :
    ofCall (hs.map (k, ·)) j = if k = j then hs else [] := by
  by_cases hkj : k = j <;> simp [ofCall, List.filter_map, Function.comp_def, hkj]

/-- What happens in a run is what happens in its calls. -/
theorem countP_eq_sum_ofCall (p : Happening κ σ ε → Bool) {n : Nat} (hlt : ∀ e ∈ h, e.1 < n) :
    h.countP (fun e => p e.2) = ∑ j ∈ Finset.range n, (ofCall h j).countP p := by
  induction h with
  | nil => simp [ofCall]
  | cons e h ih =>
      have hcons : ∀ j, (ofCall (e :: h) j).countP p =
          (ofCall h j).countP p + if e.1 = j then (p e.2).toNat else 0 := by
        intro j
        by_cases hj : e.1 = j
        · cases hp : p e.2 <;> simp [ofCall, hj, hp]
        · simp [ofCall, hj]
      have he : e.1 < n := hlt e List.mem_cons_self
      rw [List.countP_cons, ih fun e he => hlt e (List.mem_cons_of_mem _ he)]
      simp only [hcons, Finset.sum_add_distrib]
      cases hp : p e.2 <;> simp [he]

/-! ### Kinds of calls -/

/-- The number of calls of which something holds. -/
def countCalls (s : Shared κ σ ε) (p : Nat → Call κ σ ε → Bool) : Nat :=
  (List.range s.calls.length).countP fun j => (s.calls[j]?).any (p j)

/-- The number of calls for the value of a key that have ended. -/
def completed (s : Shared κ σ ε) : Nat :=
  s.countCalls fun _ call => call.isLookup && call.phase.isEnded

/-- The number of calls for the value of a key that have looked into its slot and counted that, and
have yet to end. -/
def underway (s : Shared κ σ ε) : Nat :=
  s.countCalls fun _ call => call.isLookup && call.phase.isServing

/-- The number of calls that give a value which they have not made, and have counted that. -/
def given (s : Shared κ σ ε) (h : List (Event κ σ ε)) : Nat :=
  s.countCalls fun j call =>
    call.isLookup && call.phase.givesValue && (ofCall h j).countP Happening.isStart == 0

/-- Whether a call for the value of a key has ended without a look into a slot. -/
def unlooked (h : List (Event κ σ ε)) (j : Nat) (call : Call κ σ ε) : Bool :=
  call.isLookup && call.phase.isEnded && (ofCall h j).countP Happening.isRead == 0

variable [DecidableEq κ]

/-- A call stays as it is and nothing happens in it, or it has just begun, or it moves on. -/
theorem Step.ofCall_cases (hstep : Step s es t) (hcall : t.calls[j]? = some call) :
    (s.calls[j]? = some call ∧ ofCall es j = []) ∨
      (s.calls.length ≤ j ∧ call.phase = .begun ∧ ofCall es j = []) ∨
      ∃ before, s.calls[j]? = some before ∧ before.request = call.request ∧
        es = (ofCall es j).map (j, ·) ∧ Cache.Section s.late call.request before.phase s.cache
          (ofCall es j) call.phase t.cache := by
  have hcases := hstep.call_cases hcall
  cases hstep with
  | begin =>
      refine hcases.imp (fun hsame => ⟨hsame, rfl⟩) (Or.imp (fun hbegun => ?_) ?_)
      · exact ⟨hbegun.1, hbegun.2, rfl⟩
      · rintro ⟨before, hs, hbefore, hrequest, hes, hsection⟩
        obtain rfl : hs = [] := by simpa using hes.symm
        exact ⟨before, hbefore, hrequest, rfl, hsection⟩
  | @advance k moved hs phase c hmoved hsection =>
      rcases getElem?_set_cases hcall with ⟨rfl, rfl⟩ | ⟨hjk, hcall⟩
      · refine Or.inr (Or.inr ⟨moved, hmoved, rfl, ?_⟩)
        rw [ofCall_map, if_pos rfl]
        exact ⟨rfl, hsection⟩
      · exact Or.inl ⟨hcall, by rw [ofCall_map, if_neg (Ne.symm hjk)]⟩

/-- Nothing has happened in a call that has not begun. -/
theorem ofCall_eq_nil (hsteps : Steps (start policy) h s) (hlength : s.calls.length ≤ j) :
    ofCall h j = [] := by
  rw [ofCall, List.map_eq_nil_iff, List.filter_eq_nil_iff]
  rintro ⟨k, x⟩ hmem
  have hbegun : k < s.calls.length := (accounts_of_steps hsteps).begun k x hmem
  have hne : k ≠ j := Nat.ne_of_lt (Nat.lt_of_lt_of_le hbegun hlength)
  simpa using hne

/-- What has happened in a call for the value of a key is told by how far it is. -/
theorem tells_of_steps (hon : policy.enabled = true) (hsteps : Steps (start policy) h s)
    (hcall : s.calls[j]? = some call) (hkey : call.request.key? = some key) :
    call.phase.Tells ((ofCall h j).countP Happening.isHit) ((ofCall h j).countP Happening.isMiss)
      ((ofCall h j).countP Happening.isStart) := by
  induction hsteps generalizing call with
  | refl => nomatch hcall
  | @tail t u h es hsteps hstep ih =>
      have hpolicy : t.cache.policy = policy := policy_of_steps (sound_start policy) hsteps
      rw [ofCall_append]
      rcases hstep.ofCall_cases hcall with
        ⟨hcall, hnil⟩ | ⟨hlength, hbegun, hnil⟩ | ⟨before, hbefore, hrequest, -, hsection⟩
      · rw [hnil, List.append_nil]
        exact ih hcall hkey
      · rw [hnil, ofCall_eq_nil hsteps hlength, hbegun]
        exact .unread trivial
      · have hrest := (proper_of_steps hsteps).single j before hbefore key (hrequest ▸ hkey)
        simp only [List.countP_append]
        exact hsection.tells (hpolicy ▸ hon) hkey hrest (ih hbefore (hrequest ▸ hkey))

/-- Nothing is read in a call that is not for the value of a key, nor is anything to be counted. -/
theorem reads_eq_zero_of_steps (hsteps : Steps (start policy) h s)
    (hcall : s.calls[j]? = some call) (hkey : call.request.key? = none) :
    (ofCall h j).countP Happening.isRead = 0 ∧ call.phase.OwesNothing := by
  induction hsteps generalizing call with
  | refl => nomatch hcall
  | @tail t u h es hsteps hstep ih =>
      rw [ofCall_append, List.countP_append]
      rcases hstep.ofCall_cases hcall with
        ⟨hcall, hnil⟩ | ⟨hlength, hbegun, hnil⟩ | ⟨before, hbefore, hrequest, -, hsection⟩
      · rw [hnil]
        exact ih hcall hkey
      · rw [hnil, ofCall_eq_nil hsteps hlength, hbegun]
        exact ⟨rfl, fun _ => rfl⟩
      · obtain ⟨hreads, howes⟩ := ih hbefore (hrequest ▸ hkey)
        rw [hreads, hsection.reads_eq_zero hkey]
        exact ⟨rfl, hsection.owesNothing hkey howes⟩

/-! ### Calls that find no entry -/

/-- A call has looked for the entry of its key while there was none. It ended at once. -/
def FoundNoEntry (policy : CachePolicy) (h : List (Event κ σ ε)) (s : Shared κ σ ε) (j : Nat)
    (key : κ) : Prop :=
  ∃ h₁ h₂ t u, h = h₁ ++ h₂ ∧ Steps (start policy) h₁ t ∧ Step t [] u ∧ Steps u h₂ s ∧
    t.calls[j]? = some ⟨.peek key, .begun⟩ ∧ t.cache.entry? key = none ∧
    u.calls[j]? = some ⟨.peek key, .ended .nothing⟩

/-- Nothing happens in a call that has ended. -/
theorem Steps.of_ended {answer : Answer σ ε} (hsteps : Steps s h t)
    (hcall : s.calls[j]? = some call) (hended : call.phase = .ended answer) :
    t.calls[j]? = some call ∧ ofCall h j = [] := by
  induction hsteps with
  | refl => exact ⟨hcall, rfl⟩
  | @tail t u h es hsteps hstep ih =>
      obtain ⟨hcall', hnil⟩ := ih
      obtain ⟨phase, hnext⟩ := hstep.exists_next hcall'
      rcases hstep.ofCall_cases hnext with
        ⟨hsame, hnil'⟩ | ⟨hlength, -⟩ | ⟨before, hbefore, -, -, hsection⟩
      · rw [ofCall_append, hnil, hnil', hnext, ← hsame, hcall']
        exact ⟨rfl, rfl⟩
      · exact absurd (List.getElem?_eq_some_iff.mp hcall').1 (Nat.not_lt.mpr hlength)
      · obtain rfl := Option.some.inj (hcall'.symm.trans hbefore)
        rw [hended] at hsection
        exact hsection.not_ended.elim

/-- A call that ends without a look into a slot has found no entry for its key. -/
theorem exists_foundNoEntry (hon : policy.enabled = true) (hsteps : Steps (start policy) h s)
    (hcall : s.calls[j]? = some call) (hkey : call.request.key? = some key)
    (hended : call.phase.isEnded = true) (hreads : (ofCall h j).countP Happening.isRead = 0) :
    FoundNoEntry policy h s j key := by
  induction hsteps generalizing call with
  | refl => nomatch hcall
  | @tail t u h es hsteps hstep ih =>
      rw [ofCall_append, List.countP_append, Nat.add_eq_zero_iff] at hreads
      have hpolicy : t.cache.policy = policy := policy_of_steps (sound_start policy) hsteps
      rcases hstep.ofCall_cases hcall with
        ⟨hcall, -⟩ | ⟨-, hbegun, -⟩ | ⟨before, hbefore, hrequest, hes, hsection⟩
      · -- it had ended before, and other calls have gone on since
        obtain ⟨h₁, h₂, t', u', rfl, hbefore, hlooks, hafter, hpeek⟩ :=
          ih hcall hkey hended hreads.1
        exact ⟨h₁, h₂ ++ es, t', u', List.append_assoc .., hbefore, hlooks, hafter.tail hstep,
          hpeek⟩
      · rw [hbegun] at hended
        nomatch hended
      · -- it ends with this step, so the step is its look for an entry
        have htells := tells_of_steps hon hsteps hbefore (hrequest ▸ hkey)
        rw [countP_isRead, Nat.add_eq_zero_iff] at hreads
        rw [hreads.1.1, hreads.1.2] at htells
        obtain ⟨hpeek, hbegun, hentry, hphase, hnil⟩ :=
          hsection.of_unlooked (hpolicy ▸ hon) hkey htells hended
        rw [hnil, List.map_nil] at hes
        subst hes
        refine ⟨h, [], t, u, rfl, hsteps, hstep, .refl u, ?_, hentry, ?_⟩
        · rw [hbefore, ← hpeek, ← hrequest, ← hbegun]
        · rw [hcall, ← hpeek, ← hphase]

/-- A call that has found no entry for its key ends without a look into a slot. -/
theorem FoundNoEntry.of_steps (hon : policy.enabled = true)
    (hfound : FoundNoEntry policy h s j key) :
    s.calls[j]? = some ⟨.peek key, .ended .nothing⟩ ∧
      (ofCall h j).countP Happening.isRead = 0 := by
  obtain ⟨h₁, h₂, t, u, rfl, hbefore, hlooks, hafter, hbegun, -, hended⟩ := hfound
  obtain ⟨hcall, hnil⟩ := hafter.of_ended hended rfl
  have htells := tells_of_steps hon hbefore hbegun rfl
  obtain ⟨hhits, hmisses, -⟩ := htells.of_unread trivial
  exact ⟨hcall, by rw [ofCall_append, hnil, List.append_nil, countP_isRead, hhits, hmisses]⟩

/-! ### The counts -/

omit [DecidableEq κ] in
theorem countCalls_eq_sum (s : Shared κ σ ε) (p : Nat → Call κ σ ε → Bool) :
    s.countCalls p = ∑ j ∈ Finset.range s.calls.length, ((s.calls[j]?).any (p j)).toNat :=
  countP_eq_sum_map ..

theorem countP_of_steps (p : Happening κ σ ε → Bool) (hsteps : Steps (start policy) h s) :
    h.countP (fun e => p e.2) = ∑ j ∈ Finset.range s.calls.length, (ofCall h j).countP p :=
  countP_eq_sum_ofCall p fun e he => (accounts_of_steps hsteps).begun e.1 e.2 he

omit [DecidableEq κ] in
theorem owed_eq_sum (s : Shared κ σ ε) (found : Bool) : s.owed found =
    ∑ j ∈ Finset.range s.calls.length, ((s.calls[j]?).any (·.phase.owes found)).toNat := by
  rw [owed]
  induction s.calls with
  | nil => rfl
  | cons call calls ih =>
      rw [List.countP_cons, List.length_cons, Finset.sum_range_succ', ih]
      cases howes : call.phase.owes found <;> simp [howes]

/-- The hits are the calls that give a value which they have not made, and have counted that or have
yet to. -/
theorem hits_eq_given (hon : policy.enabled = true) (hsteps : Steps (start policy) h s) :
    h.countP (·.2.isHit) = s.given h + s.owed true := by
  rw [countP_of_steps Happening.isHit hsteps, given, countCalls_eq_sum, owed_eq_sum,
    ← Finset.sum_add_distrib]
  refine Finset.sum_congr rfl fun j hj => ?_
  obtain ⟨call, hcall⟩ : ∃ call, s.calls[j]? = some call :=
    ⟨_, List.getElem?_eq_getElem (Finset.mem_range.mp hj)⟩
  rw [hcall, Option.any_some, Option.any_some]
  cases hkey : call.request.key? with
  | some key =>
      rw [(tells_of_steps hon hsteps hcall hkey).hits_eq]
      simp [Call.isLookup, hkey]
  | none =>
      obtain ⟨hzero, howes⟩ := reads_eq_zero_of_steps hsteps hcall hkey
      rw [countP_isRead, Nat.add_eq_zero_iff] at hzero
      simp [Call.isLookup, hkey, hzero.1, howes true]

/-- Every call for the value of a key that has ended or looked into its slot is counted once or has
yet to be, or has ended without a look into a slot. -/
theorem reads_add_unlooked (hon : policy.enabled = true) (hsteps : Steps (start policy) h s) :
    h.countP (·.2.isRead) + s.countCalls (unlooked h) =
      s.completed + s.underway + (s.owed true + s.owed false) := by
  -- both sides are sums over the calls, and each call tells its own part
  rw [countP_of_steps Happening.isRead hsteps, completed, underway]
  simp only [countCalls_eq_sum, owed_eq_sum, ← Finset.sum_add_distrib]
  refine Finset.sum_congr rfl fun j hj => ?_
  obtain ⟨call, hcall⟩ : ∃ call, s.calls[j]? = some call :=
    ⟨_, List.getElem?_eq_getElem (Finset.mem_range.mp hj)⟩
  simp only [hcall, Option.any_some, unlooked]
  cases hkey : call.request.key? with
  | some key =>
      have hreads := (tells_of_steps hon hsteps hcall hkey).reads_eq
      rw [← countP_isRead] at hreads
      simpa [Call.isLookup, hkey] using hreads
  | none =>
      obtain ⟨hzero, howes⟩ := reads_eq_zero_of_steps hsteps hcall hkey
      simp [Call.isLookup, hkey, hzero, howes true, howes false]

/-- A call for the value of a key is counted once, unless it looks for an entry and there is none:
as a hit if it gives a value that it has not made, and as a miss otherwise. -/
theorem lookups_counted (hon : policy.enabled = true) (hsteps : Steps (start policy) h s) :
    s.cache.metrics.hits = s.given h ∧
      s.cache.metrics.hits + s.cache.metrics.misses + s.countCalls (unlooked h) =
        s.completed + s.underway ∧
      ∀ {j call}, s.calls[j]? = some call →
        (unlooked h j call = true ↔ ∃ key, FoundNoEntry policy h s j key) := by
  have hcounted := counted_of_steps hsteps
  refine ⟨Nat.add_right_cancel (hcounted.hits.trans (hits_eq_given hon hsteps)), ?_, ?_⟩
  · have hreads := reads_add_unlooked hon hsteps
    have hsum : h.countP (·.2.isRead) = h.countP (·.2.isHit) + h.countP (·.2.isMiss) := by
      simpa [List.countP_map, Function.comp_def] using countP_isRead (h.map Prod.snd)
    have hhits := hcounted.hits
    have hmisses := hcounted.misses
    change s.cache.hits + s.cache.misses + _ = _
    omega
  · intro j call hcall
    constructor
    · intro hunlooked
      simp only [unlooked, Bool.and_eq_true, beq_iff_eq] at hunlooked
      obtain ⟨⟨hlookup, hended⟩, hreads⟩ := hunlooked
      obtain ⟨key, hkey⟩ := Option.isSome_iff_exists.mp hlookup
      exact ⟨key, exists_foundNoEntry hon hsteps hcall hkey hended hreads⟩
    · rintro ⟨key, hfound⟩
      obtain ⟨hcall', hreads⟩ := hfound.of_steps hon
      obtain rfl := Option.some.inj (hcall.symm.trans hcall')
      simp [unlooked, Call.isLookup, Request.key?, Phase.isEnded, hreads]

/-- What happens when a key is looked for, then made, then looked for and asked for again. -/
def lookingTwice : List (Event Nat Nat Unit) :=
  [(1, .reads 5 none), (1, .builds 5), (1, .lands 5 ⟨0, 7⟩), (2, .reads 5 (some ⟨0, 7⟩)),
    (3, .reads 5 (some ⟨0, 7⟩))]

/-- All calls have ended, the first of them without an entry for its key. -/
def oneUnlooked : Shared Nat Nat Unit where
  cache := { policy := ⟨true, 1⟩, entries := [(5, ⟨0, 1⟩)], slots := [⟨some ⟨0, 7⟩, 0, false⟩],
             clock := 2, made := 1, hits := 2, misses := 1, builds := 1 }
  calls := [⟨.peek 5, .ended .nothing⟩, ⟨.fetch 5, .ended (.value ⟨0, 7⟩)⟩,
    ⟨.peek 5, .ended (.value ⟨0, 7⟩)⟩, ⟨.fetch 5, .ended (.value ⟨0, 7⟩)⟩]
  late := [0]

theorem steps_oneUnlooked : Steps (start ⟨true, 1⟩) lookingTwice oneUnlooked := by
  have begun := (Steps.refl (start ⟨true, 1⟩ : Shared Nat Nat Unit)).tail (.begin _ (.peek 5))
  have ends := begun.tail (.advance (j := 0) rfl (.absent (Or.inr rfl)))
  have begun := ends.tail (.begin _ (.fetch 5))
  have timed := begun.tail (.advance (j := 1) rfl (.tick rfl))
  have waits := timed.tail (.advance (j := 1) rfl (.acquire (Cache.takesSlot_acquire rfl)))
  have builds := waits.tail (.advance (j := 1) rfl (.miss rfl rfl))
  have lands := builds.tail (.advance (j := 1) rfl (.land (v := 7) rfl))
  have unlocks := lands.tail (.advance (j := 1) rfl .unlock)
  have ends := unlocks.tail (.advance (j := 1) rfl .drop)
  have begun := ends.tail (.begin _ (.peek 5))
  have waits := begun.tail (.advance (j := 2) rfl (.find rfl rfl))
  have looks := waits.tail (.advance (j := 2) rfl (.look rfl))
  have unlocks := looks.tail (.advance (j := 2) rfl .release)
  have counts := unlocks.tail (.advance (j := 2) rfl .count)
  have ends := counts.tail (.advance (j := 2) rfl .drop)
  have begun := ends.tail (.begin _ (.fetch 5))
  have timed := begun.tail (.advance (j := 3) rfl (.tick rfl))
  have waits := timed.tail (.advance (j := 3) rfl (.acquire (Cache.takesSlot_acquire rfl)))
  have hits := waits.tail (.advance (j := 3) rfl (.hit rfl rfl))
  have unlocks := hits.tail (.advance (j := 3) rfl .unlock)
  have ends := unlocks.tail (.advance (j := 3) rfl .drop)
  exact ends

/-- Two of the four calls give a value that is there, one makes it, and one is not counted. -/
theorem lookups_counted_twice : Steps (start ⟨true, 1⟩) lookingTwice oneUnlooked ∧
    oneUnlooked.cache.metrics.hits = 2 ∧
    oneUnlooked.cache.metrics.hits + oneUnlooked.cache.metrics.misses + 1 = 4 + 0 ∧
    ∃ key, FoundNoEntry ⟨true, 1⟩ lookingTwice oneUnlooked 0 key := by
  obtain ⟨hhits, hsum, hfound⟩ := lookups_counted rfl steps_oneUnlooked
  exact ⟨steps_oneUnlooked, hhits, hsum, (hfound (j := 0) rfl).mp rfl⟩

/-- So fewer look-ups are counted than have ended. -/
theorem lookups_uncounted : Steps (start ⟨true, 1⟩) lookingTwice oneUnlooked ∧
    (∀ call ∈ oneUnlooked.calls, call.isLookup = true ∧ call.phase.isEnded = true) ∧
    oneUnlooked.cache.metrics.hits + oneUnlooked.cache.metrics.misses = 3 ∧
    oneUnlooked.completed = 4 :=
  ⟨steps_oneUnlooked, by decide, rfl, rfl⟩

end Shared

end CriteriaQuery
