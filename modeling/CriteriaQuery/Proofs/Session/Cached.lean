import CriteriaQuery.Proofs.Cache.Alone
import CriteriaQuery.Proofs.Outcome
import CriteriaQuery.Session.Cache

/-!
# Cached sessions

A cache of sessions cannot be told from none: as long as a loader gives the same tables, every
session that a call gets for a key is the one that is built for the key, and every error is that of
its build, whether values are kept or not and however few entries there are.

## Implementation notes

This is said twice. Calls may overlap in any way, and then some of them may have to wait. Calls one
after the other are the functions on session caches themselves, which always give a result.
-/

namespace CriteriaQuery

open Shared

/-! ### What a key stands for -/

/-- What a session is built from stays in it. -/
theorem Session.of_ofKey {load : NodeLoader} {key : SessionKey} {s : Session}
    (h : Session.ofKey load key = .ok s) : s.source = key.source ∧
      s.description = key.description ∧ s.dialect = key.dialect ∧ s.limits = key.limits := by
  rw [ofKey, build] at h
  split at h
  · nomatch h
  · obtain ⟨registry, -, h⟩ := bind_eq_ok_iff.mp h
    obtain rfl := pure_eq_ok_iff.mp h
    exact ⟨rfl, rfl, rfl, rfl⟩

/-- Whether the entities of a key are those of its description. -/
def SessionKey.Proper (key : SessionKey) : Prop :=
  key = .of key.source key.description key.target key.dialect key.limits

theorem SessionKey.proper_of (source : String) (description : JoinDescription) (target : Target)
    (dialect : Dialect) (limits : PageLimits) :
    (SessionKey.of source description target dialect limits).Proper := rfl

/-- Whether an answer for a key is what its build gives. -/
def SessionKey.Right (load : NodeLoader) (key : SessionKey) : Answer Session CatalogError → Prop
  | .value m =>
    (Session.build load key.source key.description key.dialect key.limits).1 = .ok m.value ∧
      (key.Proper → m.value.keyFor key.target = key)
  | .error e =>
    (Session.build load key.source key.description key.dialect key.limits).1 = .error e
  | _ => True

/-- Whether a build for a key ends as that from the loader's tables. -/
def SessionKey.Loads (load : NodeLoader) (key : SessionKey)
    (result : Except CatalogError Session) : Prop :=
  Session.ofKey load key = result

theorem SessionKey.right_of_loads {load : NodeLoader} {key : SessionKey}
    {answer : Answer Session CatalogError}
    (hvalue : ∀ m, answer = .value m → key.Loads load (.ok m.value))
    (herror : ∀ e, answer = .error e → key.Loads load (.error e)) : key.Right load answer := by
  cases answer with
  | value m =>
      have hbuilt : Session.ofKey load key = .ok m.value := hvalue m rfl
      obtain ⟨hsource, hdescription, hdialect, hlimits⟩ := Session.of_ofKey hbuilt
      refine ⟨hbuilt, fun hproper => ?_⟩
      rw [Session.keyFor, hsource, hdescription, hdialect, hlimits, ← hproper]
  | error e => exact herror e rfl
  | nothing => trivial
  | done => trivial

/-! ### Calls one after the other -/

/-- A call on a cache of sessions. -/
inductive SessionCall
  | load (key : SessionKey)
  | get (key : SessionKey)
  | invalidateKey (key : SessionKey)
  | invalidateEntity (entity : String)
  | clear

namespace SessionCall

/-- Makes a call, by the function that is there for it. -/
def run? (load : NodeLoader) (c : SessionCache) :
    SessionCall → Option (Answer Session CatalogError × SessionCache)
  | .load key => (c.load? load key).map fun r => (.ofResult r.1, r.2)
  | .get key => (c.get? key).map fun r => (.ofFound r.1, r.2)
  | .invalidateKey key => (c.invalidateKey? key).map fun c => (.done, c)
  | .invalidateEntity entity => (c.invalidateEntity? entity).map fun c => (.done, c)
  | .clear => c.clear?.map fun c => (.done, c)

/-- Makes calls one after the other. -/
def runAll? (load : NodeLoader) (c : SessionCache) :
    List SessionCall → Option (List (Answer Session CatalogError) × SessionCache)
  | [] => some ([], c)
  | call :: rest => do
    let (answer, c) ← call.run? load c
    let (answers, c) ← runAll? load c rest
    return (answer :: answers, c)

/-- Whether an answer is right: a call that loads a session gives what its build gives, one that
looks for a session gives that or nothing, and an invalidation is done. -/
def Right (load : NodeLoader) (call : SessionCall) (answer : Answer Session CatalogError) : Prop :=
  match call with
  | .load key => ((∃ m, answer = .value m) ∨ ∃ e, answer = .error e) ∧ key.Right load answer
  | .get key => ((∃ m, answer = .value m) ∨ answer = .nothing) ∧ key.Right load answer
  | _ => answer = .done

variable {load : NodeLoader} {c c' : SessionCache}

/-- Loading a session makes no other calls. -/
theorem performs_ofKey (load : NodeLoader) (key : SessionKey) :
    Performs (SessionKey.Loads load) fun c : SessionCache => some (Session.ofKey load key, c) := by
  intro c r c' h calls
  obtain rfl : c = c' := congrArg Prod.snd (Option.some.inj h)
  exact ⟨[], List.forall_mem_nil _, by rw [List.append_nil]; exact .refl _⟩

theorem right_load {key : SessionKey} {r : Except CatalogError (Made Session)}
    (hi : c.Idle (SessionKey.Loads load)) (h : c.load? load key = some (r, c')) :
    c'.Idle (SessionKey.Loads load) ∧ (SessionCall.load key).Right load (.ofResult r) := by
  have hloads : ∀ (c : SessionCache) r c', some (Session.ofKey load key, c) = some (r, c') →
      key.Loads load r := fun c r c' h => congrArg Prod.fst (Option.some.inj h)
  obtain ⟨hidle, hanswer⟩ := hi.of_runs fun _ =>
    leads_getOrBuild (performs_ofKey load key) hloads h
  obtain ⟨hvalue, herror⟩ := hanswer key rfl
  refine ⟨hidle, ?_, SessionKey.right_of_loads hvalue herror⟩
  cases r with
  | ok m => exact Or.inl ⟨m, rfl⟩
  | error e => exact Or.inr ⟨e, rfl⟩

theorem right_get {key : SessionKey} {found : Option (Made Session)}
    (hi : c.Idle (SessionKey.Loads load)) (h : c.get? key = some (found, c')) :
    c'.Idle (SessionKey.Loads load) ∧ (SessionCall.get key).Right load (.ofFound found) := by
  obtain ⟨hidle, hanswer⟩ := hi.of_runs fun _ => ⟨[], List.forall_mem_nil _, leads_get h⟩
  obtain ⟨hvalue, herror⟩ := hanswer key rfl
  refine ⟨hidle, ?_, SessionKey.right_of_loads hvalue herror⟩
  cases found with
  | none => exact Or.inr rfl
  | some m => exact Or.inl ⟨m, rfl⟩

theorem idle_invalidate {matching : SessionKey → Bool}
    (hi : c.Idle (SessionKey.Loads load)) (h : c.invalidate? matching = some c') :
    c'.Idle (SessionKey.Loads load) :=
  (hi.of_runs fun _ => ⟨[], List.forall_mem_nil _, leads_invalidate h⟩).1

/-- A call on an idle cache gives a right answer and leaves the cache idle. -/
theorem exists_run (hi : c.Idle (SessionKey.Loads load)) (call : SessionCall) :
    ∃ answer c', call.run? load c = some (answer, c') ∧ c'.Idle (SessionKey.Loads load) ∧
      call.Right load answer := by
  obtain ⟨hs, hf⟩ := hi.free
  have hinvalidate : ∀ matching, ∃ c', c.invalidate? matching = some c' ∧
      c'.Idle (SessionKey.Loads load) := by
    intro matching
    obtain ⟨c', h⟩ := hf.exists_invalidate hs matching
    exact ⟨c', h, idle_invalidate hi h⟩
  cases call with
  | load key =>
      have hbuild : ∀ c : SessionCache, ∃ r, some (Session.ofKey load key, c) = some r :=
        fun c => ⟨(Session.ofKey load key, c), rfl⟩
      obtain ⟨⟨r, c'⟩, h⟩ := hf.exists_getOrBuild hs key hbuild
      exact ⟨.ofResult r, c', by rw [ run?, SessionCache.load?, h]; rfl, right_load hi h⟩
  | get key =>
      obtain ⟨⟨found, c'⟩, h⟩ := hf.exists_get key
      exact ⟨.ofFound found, c', by rw [ run?, h]; rfl, right_get hi h⟩
  | invalidateKey key =>
      obtain ⟨c', h, hidle⟩ := hinvalidate fun k => decide (k = key)
      exact ⟨.done, c', by rw [ run?, SessionCache.invalidateKey?, h]; rfl, hidle, rfl⟩
  | invalidateEntity entity =>
      obtain ⟨c', h, hidle⟩ := hinvalidate fun k => k.entities.contains entity
      exact ⟨.done, c', by rw [ run?, SessionCache.invalidateEntity?, h]; rfl, hidle, rfl⟩
  | clear =>
      obtain ⟨c', h, hidle⟩ := hinvalidate fun _ => true
      exact ⟨.done, c', by rw [ run?, SessionCache.clear?, h]; rfl, hidle, rfl⟩

theorem exists_runAll (hi : c.Idle (SessionKey.Loads load)) (calls : List SessionCall) :
    ∃ answers c', runAll? load c calls = some (answers, c') ∧
      List.Forall₂ (Right load) calls answers := by
  induction calls generalizing c with
  | nil => exact ⟨[], c, rfl, .nil⟩
  | cons call rest ih =>
      obtain ⟨answer, c', hrun, hidle, hright⟩ := exists_run hi call
      obtain ⟨answers, c'', hrest, hrights⟩ := ih hidle
      exact ⟨answer :: answers, c'', by simp [ runAll?, hrun, hrest], .cons hright hrights⟩

end SessionCall

/-- A cache of sessions is transparent, for calls that overlap and for calls one after the
other. -/
theorem SessionCache.right_of_calls (load : NodeLoader) (policy : CachePolicy) :
    (∀ {s : Shared SessionKey Session CatalogError}, Runs (SessionKey.Loads load) (start policy) s →
      ∀ {j : Nat} {call : Call SessionKey Session CatalogError} {key : SessionKey} {answer},
        s.calls[j]? = some call → call.request.key? = some key →
        call.phase.answer? = some answer → key.Right load answer) ∧
    ∀ calls : List SessionCall, ∃ answers c,
      SessionCall.runAll? load { policy } calls = some (answers, c) ∧
        List.Forall₂ (SessionCall.Right load) calls answers := by
  constructor
  · intro s hruns j call key answer hcall hkey hanswer
    obtain ⟨hvalue, herror⟩ := hruns.of_answer hcall hkey
    exact SessionKey.right_of_loads (fun m hm => hvalue m (hm ▸ hanswer))
      fun e he => herror e (he ▸ hanswer)
  · exact SessionCall.exists_runAll (Cache.idle_start _ policy)

/-- A loader that finds the same table for every entity. -/
def anyTable : NodeLoader := fun request => .ok ⟨request.entity, "orders", ∅, ∅⟩

def tableKey : SessionKey := .of "default" ⟨"Order", []⟩ .sql .mysql {}

/-- A call waits for a session that another call makes, and reads it. -/
theorem exists_runs_read : ∃ session s, Runs (SessionKey.Loads anyTable) (start ⟨true, 1⟩) s ∧
    s.calls[1]? = some ⟨.peek tableKey, .looked 0 (.value ⟨0, session⟩)⟩ := by
  obtain ⟨session, hsession⟩ : ∃ session, Session.ofKey anyTable tableKey = .ok session := ⟨_, rfl⟩
  have begun := (Steps.refl (start ⟨true, 1⟩ : Shared SessionKey Session CatalogError)).tail
    (.begin _ (.fetch tableKey))
  have timed := begun.tail (.advance (j := 0) rfl (.tick rfl))
  have waits := timed.tail (.advance (j := 0) rfl (.acquire (Cache.takesSlot_acquire rfl)))
  have builds := waits.tail (.advance (j := 0) rfl (.miss rfl rfl))
  have begun := builds.tail (.begin _ (.peek tableKey))
  have waits := begun.tail (.advance (j := 1) rfl (.find rfl rfl))
  have lands := waits.tail (.advance (j := 0) rfl (.land (v := session) rfl))
  have unlocks := lands.tail (.advance (j := 0) rfl .unlock)
  have reads := unlocks.tail (.advance (j := 1) rfl (.look rfl))
  have hsteps : Steps (start ⟨true, 1⟩) [(0, .reads tableKey none), (0, .builds tableKey),
    (0, .lands tableKey ⟨0, session⟩), (1, .reads tableKey (some ⟨0, session⟩))] _ := reads
  refine ⟨session, _, ⟨_, hsteps, ?_⟩, rfl⟩
  constructor
  · intro j key m hmem
    obtain ⟨-, rfl, rfl⟩ : j = 0 ∧ key = tableKey ∧ m = ⟨0, session⟩ := by simpa using hmem
    exact hsession
  · intro j key e hmem
    simp at hmem

/-- The session that another call has made, and the one that is there until all are dropped. -/
theorem SessionCache.right_of_calls_read :
    (∃ session s, Runs (SessionKey.Loads anyTable) (start ⟨true, 1⟩) s ∧
      s.calls[1]? = some ⟨.peek tableKey, .looked 0 (.value ⟨0, session⟩)⟩ ∧
      Session.ofKey anyTable tableKey = .ok session ∧ session.keyFor .sql = tableKey) ∧
    ∃ session c, SessionCall.runAll? anyTable { policy := ⟨true, 1⟩ }
        [.load tableKey, .get tableKey, .clear, .get tableKey] =
          some ([.value ⟨0, session⟩, .value ⟨0, session⟩, .done, .nothing], c) ∧
      Session.ofKey anyTable tableKey = .ok session ∧ session.keyFor .sql = tableKey := by
  obtain ⟨hoverlap, hsequence⟩ := right_of_calls anyTable ⟨true, 1⟩
  constructor
  · obtain ⟨session, s, hruns, hcall⟩ := exists_runs_read
    obtain ⟨hbuilt, hkey⟩ := hoverlap hruns hcall rfl rfl
    exact ⟨session, s, hruns, hcall, hbuilt, hkey (SessionKey.proper_of ..)⟩
  · obtain ⟨session, c', hrun'⟩ : ∃ session c', SessionCall.runAll? anyTable { policy := ⟨true, 1⟩ }
        [.load tableKey, .get tableKey, .clear, .get tableKey] =
          some ([.value ⟨0, session⟩, .value ⟨0, session⟩, .done, .nothing], c') := ⟨_, _, rfl⟩
    obtain ⟨answers, c, hrun, hright⟩ :=
      hsequence [.load tableKey, .get tableKey, .clear, .get tableKey]
    obtain ⟨rfl, rfl⟩ := Prod.mk.inj (Option.some.inj (hrun.symm.trans hrun'))
    obtain ⟨⟨-, hbuilt, hkey⟩, -⟩ := List.forall₂_cons.mp hright
    exact ⟨session, c, hrun, hbuilt, hkey (SessionKey.proper_of ..)⟩

end CriteriaQuery
