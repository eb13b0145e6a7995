import CriteriaQuery.Cache.Call
import CriteriaQuery.Proofs.Cache.Room

/-!
# Calls that overlap

Any number of calls are under way on one cache, and each goes on by one section at a time: it
looks up or sets up the entry of its key, it locks a slot and does there what it has come for, it
ends a build and stores what was made, it unlocks the slot, it lets go of it. A call that waits
for a slot goes on when the slot is not locked. The calls begin at any time and go on in any
order.

A call that looks up entries, adds or removes any has the entries to itself meanwhile, so that
nobody else takes hold of a slot. But slots are let go of while it has them. It looks at the slots
of the entries one after the other, and may have found one held that nobody holds any more when it
is done.

## Implementation notes

A section in which a call has the entries stands where it ends. Whatever other calls do meanwhile
stands before it, which makes no difference to them, nor to the call but for what it has found
held: a slot that is held still, or one that was let go of while the call had the entries. As it
may have had them since the call before it gave them back, the slots that have been let go of since
then are kept, as `late`. A call that takes the entries later than that has not found all of these
held, so there are runs here that take more slots for held than a call can have found.

A call that is made inside a build is a call like any other, which begins and ends while that
build runs; nothing here relies on the order of the two. The outcome of a build is arbitrary.

The events of a history are what is said of the calls: reads of slots, builds that start, land or
fail, and keys that are forgotten, because their entry was evicted or removed or their slot was
emptied. The latest event stands last.
-/

namespace CriteriaQuery

/-- What a call asks of a cache. -/
inductive Request (κ : Type)
  /-- The value of a key, which is made if there is none. -/
  | fetch (key : κ)
  /-- The value of a key, if there is one. -/
  | peek (key : κ)
  /-- That matching keys lose their values. -/
  | invalidate (matching : κ → Bool)

/-- What a call gives back. -/
inductive Answer (σ ε : Type)
  | value (made : Made σ)
  | error (e : ε)
  | nothing
  | done

/-- The answer of a call that has looked for a value. -/
def Answer.ofFound {σ ε : Type} (found : Option (Made σ)) : Answer σ ε :=
  (found.map .value).getD .nothing

/-- Whether an answer is a value. -/
def Answer.isValue {σ ε : Type} : Answer σ ε → Bool
  | .value _ => true
  | _ => false

@[simp] theorem Answer.ofFound_eq_value_iff {σ ε : Type} {found : Option (Made σ)} {m : Made σ} :
    (ofFound found : Answer σ ε) = .value m ↔ found = some m := by
  cases found <;> simp [ofFound]

theorem Answer.ofFound_ne_error {σ ε : Type} {found : Option (Made σ)} {e : ε} :
    ofFound found ≠ .error e := by
  cases found <;> nofun

@[simp] theorem Answer.isValue_ofFound {σ ε : Type} (found : Option (Made σ)) :
    (ofFound found : Answer σ ε).isValue = found.isSome := by
  cases found <;> rfl

/-- How far a call is. -/
inductive Phase (σ ε : Type)
  | begun
  /-- The call knows its time and has not looked for its entry. -/
  | timed (now : Nat)
  /-- The call holds slots, and waits for the lock of the first. -/
  | waiting (slot : Nat) (rest : List Nat)
  /-- The call makes a value, for a slot that it has locked if values are kept. -/
  | building (slot : Option Nat)
  /-- The call has done what it had to do at a slot that it has locked. -/
  | served (slot : Nat) (rest : List Nat) (answer : Answer σ ε)
  /-- The call has looked into a slot, which it has locked, and has not counted that. -/
  | looked (slot : Nat) (answer : Answer σ ε)
  /-- The call has unlocked a slot that it has looked into, and has not counted that. -/
  | uncounted (slot : Nat) (answer : Answer σ ε)
  /-- The call has unlocked a slot that it still holds. -/
  | leaving (slot : Nat) (rest : List Nat) (answer : Answer σ ε)
  | ended (answer : Answer σ ε)

/-- A call: what it asks, and how far it is. -/
structure Call (κ σ ε : Type) where
  request : Request κ
  phase : Phase σ ε := .begun

/-- What may happen in a section of a call. -/
inductive Happening (κ σ ε : Type)
  /-- The call looks into the slot of its key. -/
  | reads (key : κ) (found : Option (Made σ))
  /-- The call starts to make a value. -/
  | builds (key : κ)
  /-- The value was made, and stored if values are kept. -/
  | lands (key : κ) (made : Made σ)
  /-- The value could not be made. -/
  | fails (key : κ) (e : ε)
  /-- The entry of the key is evicted or removed, or its slot emptied. -/
  | forgets (key : κ)

variable {κ σ ε : Type}

namespace Request

/-- The key whose value is asked for. -/
def key? : Request κ → Option κ
  | .fetch key => some key
  | .peek key => some key
  | .invalidate _ => none

/-- Whether the call is about a key. -/
def Concerns : Request κ → κ → Prop
  | .fetch key, key' => key = key'
  | .peek key, key' => key = key'
  | .invalidate matching, key' => matching key' = true

theorem concerns_iff {request : Request κ} {key key' : κ} (h : request.key? = some key) :
    request.Concerns key' ↔ key' = key := by
  cases request with
  | fetch => simp_all [ key?, Concerns, eq_comm]
  | peek => simp_all [ key?, Concerns, eq_comm]
  | invalidate => nomatch h

end Request

namespace Phase

/-- Goes on with the next slot, or ends. -/
def next (answer : Answer σ ε) : List Nat → Phase σ ε
  | [] => .ended answer
  | i :: rest => .waiting i rest

/-- The slots that the call holds. -/
def holds : Phase σ ε → List Nat
  | .waiting i rest => i :: rest
  | .building (some i) => [i]
  | .served i rest _ => i :: rest
  | .looked i _ => [i]
  | .uncounted i _ => [i]
  | .leaving i rest _ => i :: rest
  | _ => []

/-- The slot that the call has locked. -/
def locks : Phase σ ε → Option Nat
  | .building slot => slot
  | .served i _ _ => some i
  | .looked i _ => some i
  | _ => none

/-- The answer of a call that knows it. -/
def answer? : Phase σ ε → Option (Answer σ ε)
  | .served _ _ answer => some answer
  | .looked _ answer => some answer
  | .uncounted _ answer => some answer
  | .leaving _ _ answer => some answer
  | .ended answer => some answer
  | _ => none

/-- The slots that have been let go of since a call last had the entries, when a call goes on from
one phase to the next. -/
def lateAfter (late : List Nat) : Phase σ ε → Phase σ ε → List Nat
  | .begun, .timed _ => late
  | .begun, .building _ => late
  | .begun, _ => []
  | .timed _, _ => []
  | .leaving i _ _, _ => i :: late
  | _, _ => late

end Phase

namespace Cache

variable [DecidableEq κ]

/-- The keys that have an entry in a cache and none in another one. -/
def lost (c c' : Cache κ σ) : List κ :=
  (c.entries.map Prod.fst).filter fun key => (c'.entry? key).isNone

/-- The keys whose entry points at a slot. -/
def keysAt (c : Cache κ σ) (i : Nat) : List κ :=
  (c.entries.filter fun e => e.2.slot = i).map Prod.fst

/-- The sections of a call: what each makes of the phase and of the cache, and what happens. The
call may have found slots held that are `late`. -/
inductive Section (late : List Nat) : Request κ → Phase σ ε → Cache κ σ →
    List (Happening κ σ ε) → Phase σ ε → Cache κ σ → Prop
  | bypass {key c} (hoff : c.policy.enabled = false) :
    Section late (.fetch key) .begun c [.builds key] (.building none) c.countBuild
  | tick {key c} (hon : c.policy.enabled = true) :
    Section late (.fetch key) .begun c [] (.timed c.tick.1) c.tick.2
  | acquire {key now c i c'} (h : TakesSlot late key now c i c') :
    Section late (.fetch key) (.timed now) c ((c.lost c').map .forgets) (.waiting i []) c'
  | hit {key i c c' m} (hlock : c.lock? i = some c') (hm : (c'.slot i).content = some m) :
    Section late (.fetch key) (.waiting i []) c [.reads key (some m)] (.served i [] (.value m))
      (c'.count true)
  | miss {key i c c'} (hlock : c.lock? i = some c') (hnone : (c'.slot i).content = none) :
    Section late (.fetch key) (.waiting i []) c [.reads key none, .builds key] (.building (some i))
      (c'.count false)
  | land {key i c v m c'} (h : c.countBuild.make v = (m, c')) :
    Section late (.fetch key) (.building (some i)) c [.lands key m] (.served i [] (.value m))
      (c'.fill i (some m))
  | fail {key i c} (e : ε) :
    Section late (.fetch key) (.building (some i)) c [.fails key e] (.served i [] (.error e)) c
  | landUnkept {key c v m c'} (h : c.make v = (m, c')) :
    Section late (.fetch key) (.building none) c [.lands key m] (.ended (.value m)) c'
  | failUnkept {key c} (e : ε) :
    Section late (.fetch key) (.building none) c [.fails key e] (.ended (.error e)) c
  | absent {key c} (h : c.policy.enabled = false ∨ c.find? key = none) :
    Section late (.peek key) .begun c [] (.ended .nothing) c
  | find {key c i c'} (hon : c.policy.enabled = true) (h : c.find? key = some (i, c')) :
    Section late (.peek key) .begun c [] (.waiting i []) c'
  | look {key i c c'} (hlock : c.lock? i = some c') :
    Section late (.peek key) (.waiting i []) c [.reads key (c'.slot i).content]
      (.looked i (.ofFound (c'.slot i).content)) c'
  | release {request i answer c} :
    Section late request (.looked i answer) c [] (.uncounted i answer) (c.unlock i)
  | count {request i answer c} :
    Section late request (.uncounted i answer) c [] (.leaving i [] answer) (c.count answer.isValue)
  | sweep {matching c held busy c' order} (hheld : held ⊆ late)
    (h : c.sweepOf (c.idlePast held) matching = (busy, c')) (horder : order.Perm busy) :
    Section late (.invalidate matching) .begun c ((c.lost c').map .forgets) (.next .done order) c'
  | empty {matching i rest c c'} (hlock : c.lock? i = some c') :
    Section late (.invalidate matching) (.waiting i rest) c ((c.keysAt i).map .forgets)
      (.served i rest .done) (c'.fill i none)
  | unlock {request i rest answer c} :
    Section late request (.served i rest answer) c [] (.leaving i rest answer) (c.unlock i)
  | drop {request i rest answer c} :
    Section late request (.leaving i rest answer) c [] (.next answer rest) (c.drop i)

variable {late ds : List Nat} {c c' : Cache κ σ}

/-- A call that makes room while slots are let go of adds its entry as it does after they have been
let go of. -/
theorem section_of_interrupted (h : c.Sound) {key : κ} (hnone : c.entry? key = none)
    (hrun : Interrupted c ds c') (hlate : ds ⊆ late) (now : Nat) :
    Section (ε := ε) late (.fetch key) (.timed now) (ds.foldl drop c)
      (((ds.foldl drop c).lost (c'.addEntry key now)).map .forgets)
      (.waiting c'.slots.length []) (c'.addEntry key now) := by
  refine .acquire (.added ?_ (hrun.makesRoom h fun i hi _ => hlate hi))
  rwa [ entry?, entries_foldl_drop]

/-- A call that goes through the entries while slots are let go of removes and takes hold of what it
does after they have been let go of. -/
theorem section_of_looks (h : c.Sound) {order : List (κ × CacheEntry)} {idle : CacheEntry → Bool}
    (horder : order.Perm c.entries) (hlooks : Looks idle c order ds) (hlate : ds ⊆ late)
    {matching : κ → Bool} {busy busy' : List Nat}
    (hsweep : (ds.foldl drop c).sweepOf idle matching = (busy, c')) (hbusy : busy'.Perm busy) :
    Section (ε := ε) late (.invalidate matching) .begun (ds.foldl drop c)
      (((ds.foldl drop c).lost c').map .forgets) (.next .done busy') c' := by
  obtain ⟨held, hheld, heq⟩ := hlooks.exists_sweepOf_eq h horder matching
  exact .sweep (List.Subset.trans hheld hlate) (heq ▸ hsweep) hbusy

end Cache

/-- A cache, the calls on it that have begun so far, in the order of their beginnings, and the slots
that have been let go of since a call last had the entries. -/
structure Shared (κ σ ε : Type) where
  cache : Cache κ σ
  calls : List (Call κ σ ε) := []
  late : List Nat := []

/-- A call, by its number, and what happens in one of its sections. -/
abbrev Event (κ σ ε : Type) := Nat × Happening κ σ ε

namespace Shared

/-- A new cache. -/
def start (policy : CachePolicy) : Shared κ σ ε := { cache := { policy } }

/-- One more call begins. -/
def begin (s : Shared κ σ ε) (request : Request κ) : Shared κ σ ε :=
  { s with calls := s.calls ++ [{ request }] }

variable [DecidableEq κ]

/-- A call begins, or goes on by one section. -/
inductive Step : Shared κ σ ε → List (Event κ σ ε) → Shared κ σ ε → Prop
  | begin (s : Shared κ σ ε) (request : Request κ) : Step s [] (s.begin request)
  | advance {s : Shared κ σ ε} {j : Nat} {call : Call κ σ ε} {hs phase c}
    (hcall : s.calls[j]? = some call)
    (hsection : Cache.Section s.late call.request call.phase s.cache hs phase c) :
    Step s (hs.map (j, ·))
      ⟨c, s.calls.set j { call with phase }, Phase.lateAfter s.late call.phase phase⟩

/-- Steps one after the other, with the history of what has happened. -/
inductive Steps : Shared κ σ ε → List (Event κ σ ε) → Shared κ σ ε → Prop
  | refl (s : Shared κ σ ε) : Steps s [] s
  | tail {s t u : Shared κ σ ε} {h es : List (Event κ σ ε)} (hsteps : Steps s h t)
    (hstep : Step t es u) : Steps s (h ++ es) u

theorem Steps.trans {s t u : Shared κ σ ε} {h h' : List (Event κ σ ε)} (hst : Steps s h t)
    (htu : Steps t h' u) : Steps s (h ++ h') u := by
  induction htu with
  | refl => rwa [List.append_nil]
  | tail _ hstep ih =>
      rw [← List.append_assoc]
      exact ih.tail hstep

end Shared

end CriteriaQuery
